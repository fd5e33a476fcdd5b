import Mathlib.Tactic.NormNum
import Xtrax.FileGuard
import Xtrax.Machine

/-! # One writer behind a guard with a live quota

The accounts a directory counts against are read live: each reading is what the account held
at construction plus what the writer has written by then.  The writer calls `check n` and,
when it returns, writes `n` files.

A re-read happens inside `check`, before the files it admits exist.  Those are then in neither
the readings nor the counter: the world records their number as `unseen`, and the usage of an
account is its reading, the counter and `unseen` together (`Valid.written_eq`).  So the guard
stays safe exactly in the runs where every admitted batch also fits with `unseen` added
(`Covers`).
-/
namespace Xtrax.FileGuard

open FileCapGuard List Interleaving

/-- What the accounts hold once the writer has written `written` files. -/
def liveReadings (accounts : List QuotaReading) (written : Int) (takenAt : String) :
    List QuotaReading :=
  accounts.map fun a => { a with filesUsed := a.filesUsed + written, takenAt := takenAt }

/-- What a re-read of the live quota meets. -/
inductive Answer
  | live (takenAt : String)
  | unreadable (detail : String)
  | persistFails (takenAt detail : String)
  deriving DecidableEq

def Answer.take (accounts : List QuotaReading) (written : Int) : Answer → Take
  | .live takenAt => .readings (liveReadings accounts written takenAt)
  | .unreadable detail => .unreadable detail
  | .persistFails takenAt detail => .persistFails (liveReadings accounts written takenAt) detail

/-- The guard, the files the writer has written, and the files admitted that are in neither the
guard's readings nor its counter: the batch of the check that took the readings, less the batches
counted by a check whose re-read raised. -/
structure World where
  guard : FileCapGuard
  written : Int
  unseen : Int

section
variable (fmul : ℚ → Int → ℚ) (accounts : List QuotaReading)

/-- One call of `check n` and, if it returns, the writing of the `n` files. -/
def call (w : World) (n : Nat) (answer : Answer) : World :=
  let r := w.guard.check fmul n (answer.take accounts w.written)
  match r.answer with
  | .ok _ =>
    { guard := r.guard
      written := w.written + n
      unseen := if r.guard.nReads = w.guard.nReads then w.unseen else n }
  | .error _ =>
    { guard := r.guard
      written := w.written
      unseen := w.unseen - (r.guard.filesWrittenSinceRead - w.guard.filesWrittenSinceRead) }

/-- A new guard over the accounts, before anything is written. -/
def Constructed (w : World) : Prop :=
  w.written = 0 ∧ w.unseen = 0 ∧
    ∃ path capFraction rereadEvery location checkSetgidGroup effectiveGroup takenAt events,
      construct path capFraction rereadEvery location checkSetgidGroup effectiveGroup
        ((Answer.live takenAt).take accounts 0) = (events, .ok w.guard)

/-- Any sequence of calls by the one writer. -/
def machine : Machine World (Nat × Answer) where
  init := Constructed accounts
  step w a := some (call fmul accounts w a.1 a.2)

/-- No account holds more than `cap_fraction * files_limit`. -/
def WithinCap (w : World) : Prop :=
  ∀ a ∈ accounts, ¬ Exceeds fmul w.guard.capFraction a.filesLimit (a.filesUsed + w.written)

/-- The comparison of `check n` with `extra` files more passes for every reading. -/
def Admits (g : FileCapGuard) (n extra : Int) : Prop :=
  ∀ r ∈ g.lastReadings.zip g.carried,
    ¬ Exceeds fmul g.capFraction r.1.filesLimit (g.projected n r.1 r.2 + extra)

/-- The call reaches its re-read, and the re-read raises. -/
def RereadRaises (g : FileCapGuard) (n : Nat) : Answer → Prop
  | .live _ => False
  | .unreadable _ | .persistFails _ _ => g.rereadEvery ≤ g.filesWrittenSinceRead + n

/-- A batch the guard admits fits with the unseen files added, or the call raises
in its re-read. -/
def Covers (w : World) (a : Nat × Answer) : Prop :=
  Admits fmul w.guard a.1 0 → RereadRaises w.guard a.1 a.2 ∨ Admits fmul w.guard a.1 w.unseen

instance (g : FileCapGuard) (n extra : Int) : Decidable (Admits fmul g n extra) :=
  inferInstanceAs (Decidable (∀ r ∈ _, _))

instance (g : FileCapGuard) (n : Nat) : ∀ a, Decidable (RereadRaises g n a)
  | .live _ => .isFalse id
  | .unreadable _ | .persistFails _ _ => inferInstanceAs (Decidable (_ ≤ _))

instance (w : World) (a : Nat × Answer) : Decidable (Covers fmul w a) :=
  inferInstanceAs (Decidable (_ → _ ∨ _))

instance (w : World) : Decidable (WithinCap fmul accounts w) :=
  inferInstanceAs (Decidable (∀ a ∈ accounts, _))

end

/-! ## The readings, the counter and the unseen files add up -/

/-- No account is read from a stored snapshot. -/
def Live (accounts : List QuotaReading) : Prop := ∀ a ∈ accounts, a.source ∉ snapshotSources

instance (accounts : List QuotaReading) : Decidable (Live accounts) :=
  inferInstanceAs (Decidable (∀ a ∈ accounts, _))

/-- The readings in use are live ones, and the files written since are those the
counter and `unseen` count. -/
structure Valid (accounts : List QuotaReading) (w : World) (readAt : Int) (takenAt : String) :
    Prop where
  lastReadings_eq : w.guard.lastReadings = liveReadings accounts readAt takenAt
  carried_eq : w.guard.carried = List.replicate accounts.length 0
  written_eq : w.written = readAt + w.guard.filesWrittenSinceRead + w.unseen

variable {fmul : ℚ → Int → ℚ} {accounts : List QuotaReading} {w : World}

theorem valid_constructed (h : Constructed accounts w) : ∃ takenAt, Valid accounts w 0 takenAt := by
  obtain ⟨hw, hu, path, cf, re, loc, cs, eg, takenAt, events, hg⟩ := h
  obtain ⟨-, hreadings, hcarried, hcount⟩ := construct_ok hg
  refine ⟨takenAt, hreadings, ?_, ?_⟩
  · rw [hcarried, liveReadings, length_map]
  · rw [hw, hu, hcount]
    rfl

theorem mem_zip_live {readAt : Int} {takenAt : String} (h : Valid accounts w readAt takenAt)
    (p : QuotaReading → Int → Prop) :
    (∀ r ∈ w.guard.lastReadings.zip w.guard.carried, p r.1 r.2) ↔
      ∀ a ∈ accounts, p { a with filesUsed := a.filesUsed + readAt, takenAt := takenAt } 0 := by
  rw [h.lastReadings_eq, h.carried_eq, liveReadings,
    show replicate accounts.length (0 : Int) = accounts.map fun _ => 0 by simp,
    zip_map', forall_mem_map]

/-- What the guard compares is the real usage after the batch, less the unseen files. -/
theorem admits_iff {readAt : Int} {takenAt : String} (h : Valid accounts w readAt takenAt)
    (n extra : Int) :
    Admits fmul w.guard n extra ↔
      ∀ a ∈ accounts, ¬ Exceeds fmul w.guard.capFraction a.filesLimit
        (a.filesUsed + (w.written + n) - w.unseen + extra) := by
  rw [Admits, mem_zip_live h fun r c =>
    ¬ Exceeds fmul w.guard.capFraction r.filesLimit (w.guard.projected n r c + extra)]
  refine forall₂_congr fun a _ => ?_
  have hsum : a.filesUsed + readAt + 0 + w.guard.filesWrittenSinceRead + n + extra =
      a.filesUsed + (w.written + n) - w.unseen + extra := by
    have := h.written_eq
    omega
  rw [projected, hsum]

theorem refusing_eq_none_iff (g : FileCapGuard) (n : Int) :
    g.refusing fmul n = none ↔ Admits fmul g n 0 := by
  simp [refusing, Admits, findSome?_eq_none_iff]

theorem Valid.lastReadings_ne_nil (hne : accounts ≠ []) {readAt : Int} {takenAt : String}
    (h : Valid accounts w readAt takenAt) : w.guard.lastReadings ≠ [] := by
  rw [h.lastReadings_eq, liveReadings]
  simpa using hne

theorem reread_carried (hlive : Live accounts) (g : FileCapGuard) (written : Int)
    (takenAt : String) :
    (g.reread (liveReadings accounts written takenAt)).carried = replicate accounts.length 0 := by
  simp only [reread, liveReadings, map_map]
  refine eq_replicate_iff.mpr ⟨by simp, fun c hc => ?_⟩
  obtain ⟨a, ha, rfl⟩ := mem_map.mp hc
  exact if_neg (hlive a ha)

/-- The ways a call ends, for a valid world. -/
inductive Ends (fmul : ℚ → Int → ℚ) (accounts : List QuotaReading) (w : World) (n : Nat) :
    Answer → World → Prop
  | refused (answer : Answer) : ¬ Admits fmul w.guard n 0 → Ends fmul accounts w n answer w
  | counted (answer : Answer) : Admits fmul w.guard n 0 →
      w.guard.filesWrittenSinceRead + n < w.guard.rereadEvery →
      Ends fmul accounts w n answer ⟨w.guard.count n, w.written + n, w.unseen⟩
  | reread (takenAt : String) : Admits fmul w.guard n 0 →
      Ends fmul accounts w n (.live takenAt)
        ⟨(w.guard.count n).reread (liveReadings accounts w.written takenAt), w.written + n, n⟩
  | raised (answer : Answer) : Admits fmul w.guard n 0 → RereadRaises w.guard n answer →
      Ends fmul accounts w n answer ⟨w.guard.count n, w.written, w.unseen - n⟩

theorem call_ends (hne : accounts ≠ []) {readAt : Int} {takenAt : String}
    (h : Valid accounts w readAt takenAt) (n : Nat) (answer : Answer) :
    Ends fmul accounts w n answer (call fmul accounts w n answer) := by
  have hends := w.guard.check_ends fmul (h.lastReadings_ne_nil hne) n
    (answer.take accounts w.written)
  unfold call
  generalize w.guard.check fmul n (answer.take accounts w.written) = r at hends
  cases hends with
  | negative hn => omega
  | refused refusal href =>
    simp only [sub_self, sub_zero]
    refine .refused answer fun hadm => ?_
    rw [(refusing_eq_none_iff _ _).mpr hadm] at href
    cases href
  | counted p _ href hdue =>
    simp only [count_nReads, if_true]
    exact .counted answer ((refusing_eq_none_iff _ _).mp href) hdue
  | reread p events rs _ href hdue htake =>
    cases answer with
    | live t =>
      obtain ⟨-, rfl⟩ := by simpa [Answer.take, takeReadings] using htake
      simp only [reread_nReads, count_nReads, Nat.succ_ne_self, if_false]
      exact .reread t ((refusing_eq_none_iff _ _).mp href)
    | unreadable d | persistFails t d => simp [Answer.take, takeReadings] at htake
  | raised e events _ href hdue htake =>
    have hadm := (refusing_eq_none_iff _ _).mp href
    simp only [count_filesWrittenSinceRead, add_sub_cancel_left]
    cases answer with
    | live t => simp [Answer.take, takeReadings] at htake
    | unreadable d | persistFails t d => exact .raised _ hadm hdue

/-- A call keeps the sum, and leaves the accounts within their caps exactly when it
is covered. -/
theorem call_valid (hlive : Live accounts) (hne : accounts ≠ []) {readAt : Int}
    {takenAt : String} (h : Valid accounts w readAt takenAt) (n : Nat) (answer : Answer) :
    (∃ readAt' takenAt', Valid accounts (call fmul accounts w n answer) readAt' takenAt') ∧
      (WithinCap fmul accounts w →
        (WithinCap fmul accounts (call fmul accounts w n answer) ↔ Covers fmul w (n, answer))) := by
  have hsum := h.written_eq
  -- after an admitted batch, real usage is what `Admits` compares with `unseen` added
  have hreal : Admits fmul w.guard n w.unseen ↔ ∀ a ∈ accounts,
      ¬ Exceeds fmul w.guard.capFraction a.filesLimit (a.filesUsed + (w.written + n)) := by
    simp [admits_iff h]
  have hends : Ends fmul accounts w n answer (call fmul accounts w n answer) :=
    call_ends hne h n answer
  generalize call fmul accounts w n answer = w' at hends ⊢
  cases hends with
  | refused _ hno => exact ⟨⟨_, _, h⟩, fun hw => iff_of_true hw fun hadm => absurd hadm hno⟩
  | counted _ hadm hdue =>
    refine ⟨⟨readAt, takenAt, h.lastReadings_eq, h.carried_eq, ?_⟩, fun _ => ?_⟩
    · simp only [FileCapGuard.count]
      omega
    · -- no re-read is due, so none raises
      have hquiet : ¬ RereadRaises w.guard n answer := by
        cases answer with
        | live => exact id
        | unreadable | persistFails => simpa [RereadRaises] using hdue
      exact hreal.symm.trans ⟨fun hf _ => .inr hf, fun hc => (hc hadm).resolve_left hquiet⟩
  | reread t hadm =>
    refine ⟨⟨w.written, t, rfl, reread_carried hlive _ _ _, ?_⟩, fun _ => ?_⟩
    · simp [FileCapGuard.reread]
    · exact hreal.symm.trans ⟨fun hf _ => .inr hf, fun hc => (hc hadm).resolve_left id⟩
  | raised _ hadm hraise =>
    refine ⟨⟨readAt, takenAt, h.lastReadings_eq, h.carried_eq, ?_⟩, fun hw => ?_⟩
    · simp only [FileCapGuard.count]
      omega
    · exact iff_of_true hw fun _ => .inl hraise

theorem call_lastReadings_nil (h : w.guard.lastReadings = []) (n : Nat) (answer : Answer) :
    (call fmul [] w n answer).guard.lastReadings = [] := by
  have hguard : (call fmul [] w n answer).guard =
      (w.guard.check fmul n (answer.take [] w.written)).guard := by
    unfold call
    dsimp only
    split <;> rfl
  rw [hguard]
  unfold check
  split
  · exact h
  · split
    · exact h
    · split
      · exact h
      · cases answer <;> first | rfl | exact h

/-- **The guard of one writer.**  A sequence of calls keeps every account within
`cap_fraction * files_limit` throughout if and only if each batch the guard admits
also fits with the unseen files added. -/
theorem within_cap_iff_covers (hlive : Live accounts) (hinit : Constructed accounts w)
    (hw : WithinCap fmul accounts w) (calls : List (Nat × Answer)) :
    (machine fmul accounts).Always (WithinCap fmul accounts) w calls ↔
      (machine fmul accounts).Allowed (Covers fmul) w calls := by
  by_cases hne : accounts = []
  · -- without accounts there is nothing to exceed and nothing to cover
    subst hne
    obtain ⟨takenAt, hvalid⟩ := valid_constructed hinit
    refine Machine.always_iff_allowed (J := fun v => v.guard.lastReadings = [])
      (fun v a hv => ⟨_, rfl, call_lastReadings_nil hv a.1 a.2, fun _ => ?_⟩)
      hvalid.lastReadings_eq hw calls
    refine iff_of_true (fun a ha => absurd ha List.not_mem_nil) fun _ => .inr ?_
    simp [Admits, hv]
  · obtain ⟨takenAt, hvalid⟩ := valid_constructed hinit
    refine Machine.always_iff_allowed (J := fun v => ∃ readAt t, Valid accounts v readAt t)
      (fun v a hv => ?_) ⟨_, _, hvalid⟩ hw calls
    obtain ⟨readAt, t, hv⟩ := hv
    obtain ⟨hvalid', hiff⟩ := call_valid hlive hne hv a.1 a.2
    exact ⟨_, rfl, hvalid', hiff⟩

/-! ## Ten files, a guard that re-reads after every batch -/

/-- The product of two numbers a double holds exactly. -/
def exactProduct (capFraction : ℚ) (limit : Int) : ℚ := capFraction * limit

/-- A Lustre user account with ten files. -/
def tenFiles : QuotaReading where
  filesUsed := 0
  filesLimit := some 10
  source := .lfs
  command := "lfs quota -u alice /scratch"
  raw := ""
  path := "/scratch"
  takenAt := "t0"
  fsType := some "lustre"
  principal := some "alice"

/-- `FileCapGuard("/scratch", cap_fraction=1.0, reread_every=1)`, nothing written. -/
def eager : World where
  guard :=
    { path := "/scratch"
      capFraction := 1
      rereadEvery := 1
      location := ⟨"/scratch", 100, none, false⟩
      group := none
      groupImplicit := false
      lastReadings := liveReadings [tenFiles] 0 "t0"
      filesWrittenSinceRead := 0
      carried := [0]
      nReads := 1
      capFraction_pos := whole_pos
      capFraction_le_one := whole_le_one
      rereadEvery_pos := one_le_reread
      carried_length := carried_one }
  written := 0
  unseen := 0

theorem eager_constructed : Constructed [tenFiles] eager := by
  refine ⟨rfl, rfl, "/scratch", 1, 1, ⟨"/scratch", 100, none, false⟩, true, none, "t0",
    [.quotaReading tenFiles false none], ?_⟩
  have hcap : (0 : ℚ) < 1 ∧ (1 : ℚ) ≤ 1 := by norm_num
  rw [construct, dif_pos hcap, dif_pos le_rfl]
  rfl

/-- Two batches of three fit: the second is compared as 0 + 3, and 3 + 3 fits as well. -/
theorem within_cap_two_batches :
    (machine exactProduct [tenFiles]).Always (WithinCap exactProduct [tenFiles]) eager
      [(3, .live "t1"), (3, .live "t2")] :=
  (within_cap_iff_covers (by decide) eager_constructed (by decide +kernel) _).mpr
    (by decide +kernel)

/-- Two batches of six are admitted, each as 0 + 6: the account ends at twelve. -/
theorem cap_exceeded_by_unseen :
    ∃ calls, Live [tenFiles] ∧ Constructed [tenFiles] eager ∧
      WithinCap exactProduct [tenFiles] eager ∧
      ¬ (machine exactProduct [tenFiles]).Always (WithinCap exactProduct [tenFiles]) eager calls := by
  refine ⟨[(6, .live "t1"), (6, .live "t2")], by decide, eager_constructed, by decide +kernel, ?_⟩
  decide +kernel

end Xtrax.FileGuard
