import Xtrax.Dict
import Xtrax.IntentPlan
import Xtrax.Results

/-!
# Visits of sites

A session gives every visit of a site a key: the scope it stands in, its label, and the number of
visits that returned there before it with that label.  A planning session records the visits; an
executing one looks each key up in the records and compares the abstract values.

An ordinal counts the records of its counter (`Counted`), so no key is recorded twice.  A visit that
raises leaves the session as it was, so an execution that goes through the planned calls has the
scopes and counters of the plan at every call (`run_inserted`), whatever raised between them.
-/

namespace Xtrax.Intent.Sites

open List

/-! ### Sessions -/

/-- What is compared of a `jax.ShapeDtypeStruct`. -/
structure Aval where
  shape : List Nat
  dtype : String
  deriving DecidableEq, Repr

/-- The arguments of `enter_site`; the function, the constants, the tree and the selection are stored
with the record and not looked at. -/
structure Visit (ρ : Type) where
  kind : Kind
  label : String
  avals : List Aval
  length : Option Nat
  stored : ρ

/-- `SiteRecord`, in which a session finds a visit again. -/
structure Recorded (ρ : Type) where
  key : SiteKey
  kind : Kind
  avals : List Aval
  length : Option Nat
  stored : ρ

inductive Mode
  | plan | exec | other (name : String)

/-- `_OrdinalKey`. -/
abbrev Counter : Type := Option SiteKey × Path × String

/-- `Session`, its innermost scope first. -/
structure Session (ρ : Type) where
  mode : Mode
  records : List (Recorded ρ) := []
  frames : List (SiteKey × Path) := []
  ordinals : Dict Counter Nat := ∅

inductive SiteError
  /-- `SiteMismatchError` with the constraint "site not in plan". -/
  | notInPlan (site : String) (path : Path)
  | avals (site : String) (path : Path) (planned traced : List Aval)
  /-- `ValueError`: the mode is not 'plan' or 'exec'. -/
  | mode (name : String)
  /-- `RuntimeError`: scope stack is empty. -/
  | emptyStack
  deriving DecidableEq

/-- `SiteKey(parent, path, label, ordinal)`. -/
def siteKey (parent : Option SiteKey) (path : Path) (label : String) (ordinal : Nat) : SiteKey :=
  match parent with
  | none => .root path label ordinal
  | some parent => .child parent path label ordinal

/-- The counter that a key's ordinal is of. -/
def counter (key : SiteKey) : Counter := (key.parent, key.path, key.label)

section

variable {ρ : Type}

/-- `_ordinals.get(counter, 0)`. -/
def Session.count (s : Session ρ) (c : Counter) : Nat := (s.ordinals.get? c).getD 0

def Session.allocateKey (s : Session ρ) (label : String) : SiteKey :=
  let (parent, path) : Option SiteKey × Path :=
    match s.frames with
    | (key, path) :: _ => (some key, path)
    | [] => (none, .primal)
  siteKey parent path label (s.count (parent, path, label))

/-- `_check_planned`; of several records of a key the first one counts. -/
def checkPlanned (records : List (Recorded ρ)) (key : SiteKey) (avals : List Aval) :
    Except SiteError Unit :=
  match records.find? fun r => r.key = key with
  | none => .error (.notInPlan key.str key.path)
  | some planned =>
    if planned.avals = avals then .ok ()
    else .error (.avals key.str key.path planned.avals avals)

/-- The session after a visit that returned the key. -/
def Session.entered (s : Session ρ) (key : SiteKey) : Session ρ :=
  { s with ordinals := s.ordinals.set (counter key) (key.ordinal + 1) }

def Session.enterSite (s : Session ρ) (v : Visit ρ) : Except SiteError SiteKey × Session ρ :=
  let key := s.allocateKey v.label
  match s.mode with
  | .plan =>
    let record : Recorded ρ := ⟨key, v.kind, v.avals, v.length, v.stored⟩
    (.ok key, { s.entered key with records := s.records ++ [record] })
  | .exec =>
    match checkPlanned s.records key v.avals with
    | .ok () => (.ok key, s.entered key)
    | .error e => (.error e, s)
  | .other name => (.error (.mode name), s)

/-- The calls of a session; `scope` is a `push` and, however its block ends, a `pop`. -/
inductive Call (ρ : Type)
  | enter (v : Visit ρ)
  | push (key : SiteKey) (path : Path)
  | pop

/-- A call, what it returns or raises and the session after it. -/
def Session.call (s : Session ρ) : Call ρ → Except SiteError (Option SiteKey) × Session ρ
  | .enter v => ((s.enterSite v).1.map some, (s.enterSite v).2)
  | .push key path => (.ok none, { s with frames := (key, path) :: s.frames })
  | .pop =>
    match s.frames with
    | [] => (.error .emptyStack, s)
    | _ :: frames => (.ok none, { s with frames := frames })

/-- Calls one after the other, and the session after them. -/
def Session.run (s : Session ρ) : List (Call ρ) → List (Except SiteError (Option SiteKey)) × Session ρ
  | [] => ([], s)
  | c :: cs => ((s.call c).1 :: ((s.call c).2.run cs).1, ((s.call c).2.run cs).2)

/-! ### Planning -/

variable {s : Session ρ} {c : Call ρ} {calls calls' : List (Call ρ)} {records : List (Recorded ρ)}

@[simp] theorem counter_siteKey (parent : Option SiteKey) (path : Path) (label : String)
    (ordinal : Nat) : counter (siteKey parent path label ordinal) = (parent, path, label) := by
  cases parent <;> rfl

@[simp] theorem ordinal_siteKey (parent : Option SiteKey) (path : Path) (label : String)
    (ordinal : Nat) : (siteKey parent path label ordinal).ordinal = ordinal := by
  cases parent <;> rfl

theorem ordinal_allocateKey (s : Session ρ) (label : String) :
    (s.allocateKey label).ordinal = s.count (counter (s.allocateKey label)) := by
  unfold Session.allocateKey
  rw [ordinal_siteKey, counter_siteKey]

theorem count_entered (key : SiteKey) (other : Counter) :
    (s.entered key).count other = if other = counter key then key.ordinal + 1 else s.count other := by
  unfold Session.entered Session.count
  dsimp only
  rw [Dict.get?_set]
  split <;> rfl

/-- Every key is recorded once, under an ordinal that its counter has passed. -/
structure Counted (s : Session ρ) : Prop where
  nodup : (s.records.map Recorded.key).Nodup
  below : ∀ r ∈ s.records, r.key.ordinal < s.count (counter r.key)

theorem Counted.enter (h : Counted s) (hplan : s.mode = .plan) (v : Visit ρ) :
    Counted (s.enterSite v).2 := by
  have hordinal := ordinal_allocateKey s v.label
  unfold Session.enterSite
  rw [hplan]
  dsimp only
  generalize s.allocateKey v.label = key at hordinal
  constructor
  · rw [map_append, map_singleton]
    refine nodup_append.mpr ⟨h.nodup, nodup_singleton _, ?_⟩
    rintro a ha b hb rfl
    obtain rfl := mem_singleton.mp hb
    obtain ⟨r, hr, rfl⟩ := mem_map.mp ha
    have hbelow := h.below r hr
    omega
  · intro r hr
    show r.key.ordinal < (s.entered key).count (counter r.key)
    rw [count_entered]
    rcases mem_append.mp hr with hr | hr
    · have hbelow := h.below r hr
      by_cases hcounter : counter r.key = counter key
      · rw [if_pos hcounter]
        rw [hcounter] at hbelow
        omega
      · rw [if_neg hcounter]
        exact hbelow
    · obtain rfl := mem_singleton.mp hr
      rw [if_pos rfl]
      exact Nat.lt_succ_self _

theorem Counted.call (h : Counted s) (hplan : s.mode = .plan) (c : Call ρ) :
    Counted (s.call c).2 := by
  cases c with
  | enter v => exact h.enter hplan v
  | push key path => exact ⟨h.nodup, h.below⟩
  | pop =>
    unfold Session.call
    cases s.frames with
    | nil => exact h
    | cons frame frames => exact ⟨h.nodup, h.below⟩

theorem mode_call (s : Session ρ) (c : Call ρ) : (s.call c).2.mode = s.mode := by
  cases c with
  | enter v =>
    unfold Session.call Session.enterSite
    cases hmode : s.mode with
    | plan => exact hmode
    | other name => exact hmode
    | exec =>
      dsimp only
      split <;> exact hmode
  | push key path => rfl
  | pop =>
    unfold Session.call
    cases s.frames <;> rfl

theorem mode_run (s : Session ρ) (calls : List (Call ρ)) : (s.run calls).2.mode = s.mode := by
  induction calls generalizing s with
  | nil => rfl
  | cons c calls ih => exact (ih (s.call c).2).trans (mode_call s c)

theorem Counted.run (h : Counted s) (hplan : s.mode = .plan) (calls : List (Call ρ)) :
    Counted (s.run calls).2 := by
  induction calls generalizing s with
  | nil => exact h
  | cons c calls ih => exact ih (h.call hplan c) ((mode_call s c).trans hplan)

theorem records_call (hplan : s.mode = .plan) (c : Call ρ) : s.records <+: (s.call c).2.records := by
  cases c with
  | enter v =>
    unfold Session.call Session.enterSite
    rw [hplan]
    exact prefix_append _ _
  | push key path => exact prefix_refl _
  | pop =>
    unfold Session.call
    cases s.frames <;> exact prefix_refl _

theorem records_run (hplan : s.mode = .plan) (calls : List (Call ρ)) :
    s.records <+: (s.run calls).2.records := by
  induction calls generalizing s with
  | nil => exact prefix_refl _
  | cons c calls ih => exact (records_call hplan c).trans (ih ((mode_call s c).trans hplan))

/-! ### Executing -/

/-- The executing session with the scopes and counters of another one. -/
def Session.executing (s : Session ρ) (records : List (Recorded ρ)) : Session ρ :=
  { s with mode := .exec, records := records }

theorem mem_of_planned (hplan : s.mode = .plan) {v : Visit ρ}
    (hrecords : (s.call (.enter v)).2.records <+: records) :
    ⟨s.allocateKey v.label, v.kind, v.avals, v.length, v.stored⟩ ∈ records := by
  unfold Session.call Session.enterSite at hrecords
  rw [hplan] at hrecords
  exact hrecords.subset (mem_append_right _ mem_cons_self)

theorem call_executing (hplan : s.mode = .plan) (hkeys : (records.map Recorded.key).Nodup)
    (hrecords : (s.call c).2.records <+: records) :
    (s.executing records).call c = ((s.call c).1, (s.call c).2.executing records) := by
  cases c with
  | enter v =>
    have hfind := Results.find?_of_nodup hkeys (mem_of_planned hplan hrecords)
    have hcheck : checkPlanned records (s.allocateKey v.label) v.avals = .ok () := by
      unfold checkPlanned
      rw [hfind]
      exact if_pos rfl
    have hexec : (s.executing records).enterSite v =
        (.ok (s.allocateKey v.label), (s.entered (s.allocateKey v.label)).executing records) := by
      show (match checkPlanned records (s.allocateKey v.label) v.avals with
        | .ok () => _
        | .error e => _) = _
      rw [hcheck]
      rfl
    show (((s.executing records).enterSite v).1.map some, ((s.executing records).enterSite v).2) =
      ((s.enterSite v).1.map some, (s.enterSite v).2.executing records)
    rw [hexec]
    unfold Session.enterSite
    rw [hplan]
    rfl
  | push key path => rfl
  | pop =>
    obtain ⟨mode, recorded, frames, ordinals⟩ := s
    cases frames <;> rfl

theorem enter_error {v : Visit ρ} {e : SiteError} (h : (s.call (.enter v)).1 = .error e) :
    (s.call (.enter v)).2 = s := by
  unfold Session.call Session.enterSite at h ⊢
  cases hmode : s.mode with
  | plan =>
    rw [hmode] at h
    cases h
  | other name => rfl
  | exec =>
    rw [hmode] at h
    dsimp only at h ⊢
    split at h
    · cases h
    · rfl

/-- The calls `calls` with visits between them that raise for their abstract values. -/
inductive Inserted : Session ρ → List (Call ρ) → List (Call ρ) → Prop
  | nil {s : Session ρ} : Inserted s [] []
  | keep {s : Session ρ} {c : Call ρ} {calls calls' : List (Call ρ)} :
    Inserted (s.call c).2 calls calls' → Inserted s (c :: calls) (c :: calls')
  | extra {s : Session ρ} {v : Visit ρ} {calls calls' : List (Call ρ)} {site : String} {path : Path}
    {planned traced : List Aval} :
    (s.call (.enter v)).1 = .error (.avals site path planned traced) →
    Inserted (s.call (.enter v)).2 calls calls' → Inserted s calls (.enter v :: calls')

/-- Not the refusal of a visit for its abstract values. -/
def isKept : Except SiteError (Option SiteKey) → Bool
  | .error (.avals ..) => false
  | _ => true

theorem isKept_call (hplan : s.mode = .plan) (c : Call ρ) : isKept (s.call c).1 = true := by
  cases c with
  | enter v =>
    unfold Session.call Session.enterSite
    rw [hplan]
    rfl
  | push key path => rfl
  | pop =>
    unfold Session.call
    cases s.frames <;> rfl

/-- **An execution with visits that raise** returns what was planned, and goes through the scopes and
counters of the plan. -/
theorem run_inserted (hplan : s.mode = .plan) (hkeys : (records.map Recorded.key).Nodup)
    (hrecords : (s.run calls).2.records <+: records)
    (h : Inserted (s.executing records) calls calls') :
    ((s.executing records).run calls').1.filter isKept = (s.run calls).1 ∧
      ((s.executing records).run calls').2 = (s.run calls).2.executing records := by
  generalize hs : s.executing records = e at h
  induction h generalizing s with
  | nil =>
    subst hs
    exact ⟨rfl, rfl⟩
  | @keep e c calls calls' _ ih =>
    subst hs
    have hmode := (mode_call s c).trans hplan
    have hcall := call_executing hplan hkeys ((records_run hmode calls).trans hrecords)
    obtain ⟨houtcomes, hend⟩ := ih hmode hrecords (congrArg Prod.snd hcall).symm
    unfold Session.run
    rw [congrArg Prod.fst hcall, filter_cons_of_pos (isKept_call hplan c), houtcomes, hend]
    exact ⟨rfl, rfl⟩
  | @extra e v calls calls' site path planned traced hraises _ ih =>
    subst hs
    have hsame := enter_error hraises
    show filter isKept (((s.executing records).call (.enter v)).1 ::
        (((s.executing records).call (.enter v)).2.run calls').1) = _ ∧
      (((s.executing records).call (.enter v)).2.run calls').2 = _
    rw [hraises, filter_cons_of_neg (by simp [isKept])]
    exact ih hplan hrecords hsame.symm

theorem run_append (s : Session ρ) (calls calls' : List (Call ρ)) :
    s.run (calls ++ calls') =
      ((s.run calls).1 ++ ((s.run calls).2.run calls').1, ((s.run calls).2.run calls').2) := by
  induction calls generalizing s with
  | nil => rfl
  | cons c calls ih =>
    rw [cons_append, Session.run, ih]
    rfl

/-- **Keys are unique and replayable.**  A planning session records every key once.  An execution over
its records that makes the planned calls, with any visits between them that raise for their abstract
values, returns at each planned call what was planned; and where a visit is planned, no visit of its
label is refused as missing. -/
theorem site_keys_replay (calls : List (Call ρ)) :
    let plan := Session.run { mode := .plan } calls
    let exec : Session ρ := { mode := .exec, records := plan.2.records }
    (plan.2.records.map Recorded.key).Nodup ∧
      (∀ calls', Inserted exec calls calls' → (exec.run calls').1.filter isKept = plan.1) ∧
      ∀ before v after, calls = before ++ .enter v :: after →
        ∀ before', Inserted exec before before' → ∀ v', v'.label = v.label → ∀ site path,
          ((exec.run before').2.call (.enter v')).1 ≠ .error (.notInPlan site path) := by
  intro plan exec
  let start : Session ρ := { mode := .plan }
  have hkeys : (plan.2.records.map Recorded.key).Nodup :=
    (Counted.run (s := start) ⟨List.nodup_nil, nofun⟩ rfl calls).nodup
  refine ⟨hkeys, fun calls' h => ?_, ?_⟩
  · exact (run_inserted (s := start) rfl hkeys (List.prefix_refl _) h).1
  · rintro before v after hcalls before' h v' hlabel site path
    have hrun : plan.2 = ((start.run before).2.run (.enter v :: after)).2 := by
      show (start.run calls).2 = _
      rw [hcalls, run_append]
    have hmode : (start.run before).2.mode = .plan := mode_run start before
    have hrecords : ((start.run before).2.call (.enter v)).2.records <+: plan.2.records := by
      rw [hrun]
      exact records_run ((mode_call _ _).trans hmode) after
    have hmem := mem_of_planned hmode hrecords
    have hend := (run_inserted (s := start) rfl hkeys
      ((records_call hmode (.enter v)).trans hrecords) h).2
    show ((Session.run (start.executing plan.2.records) before').2.call (.enter v')).1 ≠ _
    rw [hend]
    show (((match checkPlanned plan.2.records ((start.run before).2.allocateKey v'.label) v'.avals with
      | .ok () => _
      | .error e => _ : Except SiteError SiteKey × Session ρ).1.map some)) ≠ _
    unfold checkPlanned
    rw [hlabel, Results.find?_of_nodup hkeys hmem]
    dsimp only
    by_cases havals : v.avals = v'.avals
    · rw [if_pos havals]
      exact fun h => nomatch h
    · rw [if_neg havals]
      exact fun h => nomatch h

end

/-! ### A nested visit -/

namespace Nested

def visit (n : Nat) : Visit Unit := ⟨.loop, "step", [⟨[n], "float32"⟩], none, ()⟩

/-- A visit, two of the same label in its scope, and one after it. -/
def calls : List (Call Unit) :=
  [.enter (visit 4), .push (.root .primal "step" 0) .diff, .enter (visit 2), .enter (visit 3), .pop,
    .enter (visit 5)]

/-- With visits of other shapes before the planned ones. -/
def retried : List (Call Unit) :=
  [.enter (visit 7), .enter (visit 4), .push (.root .primal "step" 0) .diff, .enter (visit 2),
    .enter (visit 2), .enter (visit 3), .pop, .enter (visit 5)]

def exec : Session Unit :=
  { mode := .exec, records := (Session.run { mode := .plan } calls).2.records }

theorem inserted : Inserted exec calls retried :=
  .extra rfl (.keep (.keep (.keep (.extra rfl (.keep (.keep (.keep .nil)))))))

end Nested

theorem site_keys_replay_nested : (Nested.exec.run Nested.retried).1.filter isKept =
    (Session.run { mode := .plan } Nested.calls).1 :=
  (site_keys_replay Nested.calls).2.1 Nested.retried Nested.inserted

end Xtrax.Intent.Sites
