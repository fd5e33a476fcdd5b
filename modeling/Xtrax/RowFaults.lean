import Xtrax.LedgerRecord
import Xtrax.Results

/-!
# Lines that end the reader

The reader skips a line where an error of the ledger leaves its decoding, and ends where anything
else does.  Which of the two it is shows in the line's JSON: the checks of a row look at one field
each, which passes, is refused with an error of the ledger, or is of a kind that the check cannot
handle (`rowChecks`), and the first check that a field does not pass decides.
-/

namespace Xtrax.LedgerText
open PyJson

inductive Check
  | passes | refuses | escapes
  deriving DecidableEq

/-- The first check that is not passed. -/
def firstFault (checks : List Check) : Check :=
  checks.foldr (fun c rest => if c = .passes then rest else c) .passes

def Check.require (p : Bool) : Check := if p then .passes else .refuses

/-! ### The checks of the fields -/

/-- The field is there, else there is a `KeyError`. -/
def presentCheck (row : List (PyStr × PyVal)) (key : String) : Check :=
  if (row.lookup (py key)).isSome then .passes else .escapes

/-- A text that is not blank.  What is neither empty nor a string has no `strip`. -/
def textCheck : PyVal → Check
  | .str s => .require (!blank s)
  | v => if truthy v then .escapes else .refuses

/-- A name in the table.  A list or an object cannot be looked up in a set. -/
def nameCheck {α : Type} (table : List (PyStr × α)) : PyVal → Check
  | .str s => .require (table.lookup s).isSome
  | .list _ | .dict _ => .escapes
  | _ => .refuses

def isHashable : PyVal → Bool
  | .list _ | .dict _ => false
  | _ => true

/-- A key and a value, the key neither a list nor an object. -/
def isPair : PyVal → Bool
  | .list [key, _] => isHashable key
  | .str [_, _] | .dict [_, _] => true
  | _ => false

/-- What is empty, an object or a list of pairs makes a dictionary. -/
def dictCheck (v : PyVal) : Check :=
  if !truthy v then .passes
  else
    match v with
    | .dict _ => .passes
    | .list vs => if vs.all isPair then .passes else .escapes
    | _ => .escapes

/-- There are no such keys.  The message sorts them, which keys of several kinds are not. -/
def keysCheck (strings : List PyStr) (others : List OtherKey) : Check :=
  if strings = [] ∧ others = [] then .passes
  else if (strings ≠ [] ∧ others ≠ []) ∨ (.number ∈ others ∧ .none ∈ others) then .escapes
  else .refuses

def isCount : PyVal → Bool
  | .int n => 0 ≤ n
  | _ => false

/-- An element of `ir`, where a `TypeError` is refused. -/
def refCheck : PyVal → Check
  | .dict ref =>
    let mode := memberOf irModes (get ref "mode" (.str (py "full")))
    firstFault [
      .require (ref.all fun e => e.1 ∈ irFields),
      .require (["kind", "sha256", "bytes"].all fun key => (ref.lookup (py key)).isSome),
      .require mode.isOk,
      textCheck (get ref "kind"),
      .require (isCount (get ref "bytes")),
      if mode.toOption = some .skipped then textCheck (get ref "reason")
      else .require ((lenOf (get ref "sha256")).toOption = some 64)]
  | _ => .refuses

def irCheck : PyVal → Check
  | .list refs => firstFault (refs.map refCheck)
  | .str [] | .dict [] => .passes
  | _ => .refuses

/-- The strings among the keys of `dict(v or {})`, with what they lead to, and its other keys. -/
def looseDict (v : PyVal) : LooseDict := (dictOf v).toOption.getD {}

/-- The checks of the fields of a row of the running version, in their order. -/
def rowChecks (row : List (PyStr × PyVal)) : List Check :=
  let provenance := looseDict (get row "provenance")
  let context := looseDict (get row "context")
  let status := get row "telemetry_status" (.str (py "complete"))
  [.require (row.all fun e => e.1 ∈ knownFields),
    dictCheck (get row "provenance"),
    keysCheck ((provenance.entries.map Prod.fst).filter fun k => k ∉ knownProvenance)
      provenance.others,
    irCheck (get row "ir" (.list [])),
    presentCheck row "run_id",
    presentCheck row "kind",
    dictCheck (get row "context"),
    presentCheck row "ts",
    .require (distributionsOf (get provenance.entries "distributions" (.dict []))).isOk,
    textCheck (get row "run_id"),
    nameCheck runKinds (get row "kind"),
    nameCheck statuses status,
    .require (match get row "derived_from", get row "run_id" with
      | .str parent, .str runId => !(blank parent || parent = runId)
      | _, _ => true),
    if (memberOf statuses status).toOption = some .complete then .passes
    else textCheck (get row "status_reason"),
    keysCheck ((context.entries.filter fun e => (textOf e.2).isNone).map Prod.fst) context.others]

/-- The line has more digits or levels than the interpreter takes, or it is an object of a version
that is read and the first check that it does not pass cannot handle the field. -/
def Escapes (depth : Nat) (line : List Char) : Prop :=
  match loads depth line with
  | .ok raw => ∃ row, upgradeRow raw = .ok row ∧ firstFault (rowChecks row) = .escapes
  | .error .decode => False
  | .error _ => True

/-! ### What leaves the decoding -/

/-- The check that an outcome is that of. -/
def fault {α : Type} : Except Raised α → Check
  | .ok _ => .passes
  | .error e => if e.skipped then .refuses else .escapes

section

variable {α β : Type} {x : Except Raised α} {f : α → Except Raised β} {c : Check}
  {checks : List Check} {v : PyVal}

theorem firstFault_error (e : Raised) (checks : List Check) :
    firstFault (fault (.error e : Except Raised α) :: checks) =
      fault (.error e : Except Raised α) := by
  refine if_neg ?_
  cases e <;> nofun

theorem fault_bind (hx : fault x = c) (hf : ∀ a, x = .ok a → fault (f a) = firstFault checks) :
    fault (x >>= f) = firstFault (c :: checks) := by
  subst hx
  cases x with
  | ok a => exact hf a rfl
  | error e => exact (firstFault_error (α := α) e checks).symm

theorem fault_refuse {p : Prop} [Decidable p] {b : Bool} (hb : b = true ↔ ¬p)
    (hx : fault x = firstFault checks) :
    fault (if p then .error .ledgerRecord else x) = firstFault (.require b :: checks) := by
  by_cases hp : p
  · rw [if_pos hp, Bool.eq_false_iff.mpr fun h => hb.mp h hp]
    rfl
  · rw [if_neg hp, hb.mpr hp, hx]
    rfl

theorem fault_getItem (row : List (PyStr × PyVal)) (key : String) :
    fault (getItem row key) = presentCheck row key := by
  unfold getItem presentCheck
  cases row.lookup (py key) <;> rfl

theorem get_of_getItem {row : List (PyStr × PyVal)} {key : String}
    (h : getItem row key = .ok v) (default : PyVal) : get row key default = v := by
  unfold getItem at h
  unfold get
  cases hrow : row.lookup (py key) with
  | none =>
    rw [hrow] at h
    cases h
  | some found =>
    rw [hrow] at h
    exact Except.ok.inj h

theorem fault_requireText (v : PyVal) : fault (requireText v) = textCheck v := by
  unfold requireText textCheck
  cases v with
  | str s =>
    cases s with
    | nil => rfl
    | cons c s =>
      show fault (if blank (c :: s) then .error .ledgerRecord else .ok (c :: s)) =
        .require (!blank (c :: s))
      cases blank (c :: s) <;> rfl
  | none => rfl
  | bool b => cases b <;> rfl
  | int n =>
    show fault (if !(n != 0) then .error .ledgerRecord else .error .attributeError) =
      if n != 0 then .escapes else .refuses
    cases n != 0 <;> rfl
  | float x =>
    show fault (if !truthyFloat x then .error .ledgerRecord else .error .attributeError) =
      if truthyFloat x then .escapes else .refuses
    cases truthyFloat x <;> rfl
  | list vs => cases vs <;> rfl
  | dict entries => cases entries <;> rfl

theorem fault_memberOf {γ : Type} (table : List (PyStr × γ)) (v : PyVal) :
    fault (memberOf table v) = nameCheck table v := by
  cases v with
  | str s =>
    unfold memberOf nameCheck
    simp only
    cases table.lookup s <;> rfl
  | _ => rfl

theorem fault_refuseKeys (strings : List PyStr) (others : List OtherKey) :
    fault (refuseKeys strings others) = keysCheck strings others := by
  unfold refuseKeys keysCheck
  split_ifs <;> rfl

theorem setItem_pairOf (d : LooseDict) (e : PyVal) :
    (isPair e = true ∧ ∃ d', (pairOf e >>= fun p => d.setItem p.1 p.2) = .ok d') ∨
      isPair e = false ∧ fault (pairOf e >>= fun p => d.setItem p.1 p.2) = .escapes := by
  cases e with
  | list vs =>
    match vs with
    | [] | [_] | _ :: _ :: _ :: _ => exact .inr ⟨rfl, rfl⟩
    | [key, _] =>
      cases key with
      | list _ | dict _ => exact .inr ⟨rfl, rfl⟩
      | _ => exact .inl ⟨rfl, _, rfl⟩
  | str s =>
    match s with
    | [] | [_] | _ :: _ :: _ :: _ => exact .inr ⟨rfl, rfl⟩
    | [_, _] => exact .inl ⟨rfl, _, rfl⟩
  | dict entries =>
    match entries with
    | [] | [_] | _ :: _ :: _ :: _ => exact .inr ⟨rfl, rfl⟩
    | [_, _] => exact .inl ⟨rfl, _, rfl⟩
  | _ => exact .inr ⟨rfl, rfl⟩

theorem fault_pairs (vs : List PyVal) (d : LooseDict) :
    fault (vs.foldlM (fun d e => pairOf e >>= fun p => d.setItem p.1 p.2) d) =
      if vs.all isPair then .passes else .escapes := by
  induction vs generalizing d with
  | nil => rfl
  | cons e vs ih =>
    rw [List.foldlM_cons, List.all_cons]
    rcases setItem_pairOf d e with ⟨hpair, d', hd'⟩ | ⟨hpair, hescapes⟩
    · rw [hd', hpair]
      exact ih d'
    · rw [hpair]
      cases hstep : pairOf e >>= fun p => d.setItem p.1 p.2 with
      | ok d' =>
        rw [hstep] at hescapes
        cases hescapes
      | error r =>
        rw [hstep] at hescapes
        exact hescapes

theorem fault_dictOf (v : PyVal) : fault (dictOf v) = dictCheck v := by
  unfold dictOf dictCheck
  cases htruthy : truthy v with
  | false => rfl
  | true =>
    cases v with
    | list vs => exact fault_pairs vs {}
    | _ => rfl

theorem looseDict_of_dictOf {d : LooseDict} (h : dictOf v = .ok d) : looseDict v = d := by
  rw [looseDict, h]
  rfl

/-! ### The references -/

theorem fault_require {α : Type} {x : Except Raised α} (h : ∀ e, x = .error e → e.skipped = true) :
    fault x = .require x.isOk := by
  cases x with
  | ok a => rfl
  | error e => exact if_pos (h e rfl)

theorem fault_catchType_bind {x : Except Raised α} (hx : fault (catchType x) = c)
    (hf : ∀ a, x = .ok a → fault (catchType (f a)) = firstFault checks) :
    fault (catchType (x >>= f)) = firstFault (c :: checks) := by
  subst hx
  cases x with
  | ok a => exact hf a rfl
  | error e => cases e <;> rfl

theorem fault_catchType_refuse {p : Prop} [Decidable p] {b : Bool} {e : Raised}
    (he : fault (catchType (.error e : Except Raised α)) = .refuses) (hb : b = true ↔ ¬p)
    (hx : fault (catchType x) = firstFault checks) :
    fault (catchType (if p then .error e else x)) = firstFault (.require b :: checks) := by
  by_cases hp : p
  · rw [if_pos hp, Bool.eq_false_iff.mpr fun h => hb.mp h hp]
    exact he
  · rw [if_neg hp, hb.mpr hp, hx]
    rfl

theorem fault_catchType_memberOf {γ : Type} (table : List (PyStr × γ)) (v : PyVal) :
    fault (catchType (memberOf table v)) = .require (memberOf table v).isOk := by
  cases v with
  | str s =>
    unfold memberOf
    simp only
    cases table.lookup s <;> rfl
  | _ => rfl

theorem catchType_requireText (v : PyVal) : catchType (requireText v) = requireText v := by
  unfold requireText
  split
  · rfl
  · split
    · split <;> rfl
    · rfl

theorem fault_catchType_countOf (v : PyVal) : fault (catchType (countOf v)) = .require (isCount v) := by
  cases v with
  | int n =>
    unfold countOf isCount
    by_cases hn : n < 0
    · simp only [if_pos hn, decide_eq_false (not_le.mpr hn)]
      rfl
    · simp only [if_neg hn, decide_eq_true (not_lt.mp hn)]
      rfl
  | _ => rfl

theorem fault_make (kind sha256 bytes mode reason : PyVal) :
    fault (catchType (IRRef.make kind sha256 bytes mode reason)) = firstFault [
      .require (memberOf irModes mode).isOk, textCheck kind, .require (isCount bytes),
      if (memberOf irModes mode).toOption = some .skipped then textCheck reason
      else .require ((lenOf sha256).toOption = some 64)] := by
  have htext : ∀ v, fault (catchType (requireText v)) = textCheck v := fun v => by
    rw [catchType_requireText, fault_requireText]
  refine fault_catchType_bind (fault_catchType_memberOf irModes mode) fun m hm => ?_
  refine fault_catchType_bind (htext kind) fun kind _ => ?_
  refine fault_catchType_bind (fault_catchType_countOf bytes) fun bytes _ => ?_
  rw [hm]
  by_cases hskipped : m = .skipped
  · subst hskipped
    exact fault_catchType_bind (htext reason) fun _ _ => rfl
  · have hother : (Except.ok m : Except Raised IRMode).toOption ≠ some .skipped := fun h =>
      hskipped (Option.some.inj h)
    rw [if_neg hskipped, if_neg hother]
    cases hlen : lenOf sha256 with
    | error e =>
      cases sha256 <;> cases hlen <;> rfl
    | ok n =>
      by_cases hn : n = 64
      · subst hn
        rfl
      · have hother : (Except.ok n : Except Raised Nat).toOption ≠ some 64 := fun h =>
          hn (Option.some.inj h)
        show fault (catchType (if n = 64 then _ else _)) = _
        rw [if_neg hn, decide_eq_false hother]
        rfl

theorem fault_irRefOf (v : PyVal) : fault (catchType (irRefOf v)) = refCheck v := by
  cases v with
  | dict ref =>
    unfold irRefOf refCheck
    refine fault_catchType_refuse rfl (by simp) ?_
    have hget : ∀ {key : String} {v : PyVal}, ref.lookup (py key) = some v → get ref key = v :=
      fun h => by rw [get, h, Option.getD_some]
    cases hkind : ref.lookup (py "kind") with
    | none =>
      simp only [List.all_cons, hkind, Option.isSome_none, Bool.false_and]
      rfl
    | some kind =>
      cases hsha : ref.lookup (py "sha256") with
      | none =>
        simp only [List.all_cons, hsha, Option.isSome_none, Bool.false_and, Bool.and_false]
        rfl
      | some sha256 =>
        cases hbytes : ref.lookup (py "bytes") with
        | none =>
          simp only [List.all_cons, hbytes, Option.isSome_none, Bool.false_and, Bool.and_false]
          rfl
        | some bytes =>
          simp only [List.all_cons, hkind, hsha, hbytes, Option.isSome_some, hget hkind,
            hget hsha, hget hbytes]
          exact fault_make kind sha256 bytes _ _
  | _ => rfl

theorem fault_irOf (v : PyVal) : fault (catchType (irOf v)) = irCheck v := by
  cases v with
  | list refs =>
    show fault (catchType (refs.mapM irRefOf)) = firstFault (refs.map refCheck)
    induction refs with
    | nil => rfl
    | cons ref refs ih =>
      rw [List.mapM_cons, List.map_cons]
      refine fault_catchType_bind (fault_irRefOf ref) fun a _ => ?_
      rw [← ih]
      cases refs.mapM irRefOf with
      | ok rest => rfl
      | error e => cases e <;> rfl
  | str s => cases s <;> rfl
  | dict entries => cases entries <;> rfl
  | _ => rfl

/-! ### The row -/

theorem distributionsOf_skipped (e : Raised) (h : distributionsOf v = .error e) :
    e.skipped = true := by
  cases v with
  | dict entries =>
    suffices hfields : ∀ (f : PyStr × PyVal → Except Raised (PyStr × SortedDict PyStr)),
        (∀ a e, f a = .error e → e.skipped = true) →
        ∀ as : List (PyStr × PyVal), ∀ e, as.mapM f = .error e → e.skipped = true by
      rcases Results.bind_eq_error h with hmap | ⟨fields, -, hmap⟩
      · refine hfields _ (fun a e ha => ?_) entries e hmap
        split at ha
        · cases ha
          rfl
        · rcases Results.bind_eq_error ha with hentry | ⟨entry, -, hentry⟩
          · unfold distributionOf at hentry
            split at hentry
            · split at hentry
              · split at hentry
                · cases hentry
                · cases hentry
                  rfl
              · cases hentry
                rfl
            · cases hentry
              rfl
          · cases hentry
      · cases hmap
    intro f hf as
    induction as with
    | nil => exact fun e h => nomatch h
    | cons a as ih =>
      intro e h
      rw [List.mapM_cons] at h
      rcases Results.bind_eq_error h with ha | ⟨b, -, h⟩
      · exact hf a e ha
      · rcases Results.bind_eq_error h with has | ⟨bs, -, h⟩
        · exact ih e has
        · cases h
  | _ =>
    cases h
    rfl

theorem fault_provenance (raw : List (PyStr × PyVal)) : fault (RunProvenance.make raw) =
    .require (distributionsOf (get raw "distributions" (.dict []))).isOk := by
  rw [← fault_require distributionsOf_skipped]
  unfold RunProvenance.make
  cases distributionsOf (get raw "distributions" (.dict [])) <;> rfl

theorem str_of_requireText {s : PyStr} (h : requireText v = .ok s) : v = .str s := by
  unfold requireText at h
  split at h
  · cases h
  · split at h
    · split at h <;> cases h
      rfl
    · cases h

theorem fault_checkDerived (runId : PyStr) (v : PyVal) : fault (checkDerived v runId) =
    .require (match v with
      | .str parent => !(blank parent || parent = runId)
      | _ => true) := by
  cases v with
  | str parent =>
    show fault (if blank parent = true ∨ parent = runId then _ else _) =
      .require (!(blank parent || decide (parent = runId)))
    by_cases h : blank parent = true ∨ parent = runId
    · have hb : (blank parent || decide (parent = runId)) = true := by simpa using h
      rw [if_pos h, hb]
      rfl
    · have hb : (blank parent || decide (parent = runId)) = false := by simpa using h
      rw [if_neg h, hb]
      rfl
  | _ => rfl

theorem fault_checkStatus (status : TelemetryStatus) : fault (checkStatus status v) =
    if status = .complete then .passes else textCheck v := by
  unfold checkStatus
  split
  · rfl
  · rw [← fault_requireText]
    cases requireText v <;> rfl

theorem fault_contextOf (d : LooseDict) : fault (contextOf d) =
    keysCheck ((d.entries.filter fun e => (textOf e.2).isNone).map Prod.fst) d.others := by
  rw [← fault_refuseKeys]
  unfold contextOf
  cases refuseKeys ((d.entries.filter fun e => (textOf e.2).isNone).map Prod.fst) d.others <;> rfl

/-- **What leaves `from_dict`** is what the first check that is not passed says. -/
theorem fault_fromDict (row : List (PyStr × PyVal)) :
    fault (RunLedgerRecord.fromDict row) = firstFault (rowChecks row) := by
  unfold RunLedgerRecord.fromDict rowChecks
  refine fault_refuse (by simp) ?_
  refine fault_bind (fault_dictOf _) fun provenance hprovenance => ?_
  rw [looseDict_of_dictOf hprovenance]
  refine fault_bind (fault_refuseKeys _ _) fun _ _ => ?_
  refine fault_bind (fault_irOf _) fun ir _ => ?_
  refine fault_bind (fault_getItem row "run_id") fun runId hrunId => ?_
  refine fault_bind (fault_getItem row "kind") fun kind hkind => ?_
  refine fault_bind (fault_dictOf _) fun context hcontext => ?_
  rw [looseDict_of_dictOf hcontext, get_of_getItem hrunId, get_of_getItem hkind]
  refine fault_bind (fault_getItem row "ts") fun ts _ => ?_
  refine fault_bind (fault_provenance _) fun provenance _ => ?_
  refine fault_bind (fault_requireText runId) fun s hs => ?_
  obtain rfl := str_of_requireText hs
  refine fault_bind (fault_memberOf runKinds kind) fun _ _ => ?_
  refine fault_bind (fault_memberOf statuses _) fun status hstatus => ?_
  rw [hstatus]
  refine fault_bind ?_ fun _ _ => ?_
  · rw [fault_checkDerived]
    cases get row "derived_from" <;> rfl
  · refine fault_bind ?_ fun _ _ => ?_
    · rw [fault_checkStatus]
      cases status <;> rfl
    · exact fault_bind (fault_contextOf context) fun _ _ => rfl

theorem upgradeRow_skipped {raw : PyVal} {e : Raised} (h : upgradeRow raw = .error e) :
    e.skipped = true := by
  unfold upgradeRow migrateV1 at h
  repeat' split at h
  all_goals cases h
  all_goals rfl

theorem fault_eq_escapes : fault x = .escapes ↔ ∃ e, x = .error e ∧ e.skipped = false := by
  cases x with
  | ok a => exact ⟨nofun, fun ⟨_, h, _⟩ => nomatch h⟩
  | error e =>
    constructor
    · intro h
      cases hskipped : e.skipped with
      | true => cases (if_pos hskipped).symm.trans h
      | false => exact ⟨e, rfl, hskipped⟩
    · rintro ⟨e', he, hskipped⟩
      cases he
      exact if_neg (ne_true_of_eq_false hskipped)

/-- **The lines that escape** are those that end the reader. -/
theorem escapes_iff (depth : Nat) (line : List Char) :
    Escapes depth line ↔ ∃ e, readLine depth line = .error e ∧ e.skipped = false := by
  rw [← fault_eq_escapes]
  unfold Escapes readLine
  cases loads depth line with
  | error e => cases e <;> decide
  | ok raw =>
    show (∃ row, upgradeRow raw = .ok row ∧ firstFault (rowChecks row) = .escapes) ↔
      fault (upgradeRow raw >>= RunLedgerRecord.fromDict) = .escapes
    cases hrow : upgradeRow raw with
    | error e =>
      refine iff_of_false (fun ⟨_, h, _⟩ => nomatch h) fun h => ?_
      cases (if_pos (upgradeRow_skipped hrow)).symm.trans h
    | ok row =>
      show _ ↔ fault (RunLedgerRecord.fromDict row) = .escapes
      rw [fault_fromDict]
      exact ⟨fun ⟨_, h, hfirst⟩ => Except.ok.inj h ▸ hfirst, fun h => ⟨row, rfl, h⟩⟩

theorem not_escapes_iff {depth : Nat} {line : List Char} :
    ¬Escapes depth line ↔ ∀ e, readLine depth line = .error e → e.skipped = true := by
  rw [escapes_iff]
  push Not
  simp

end

end Xtrax.LedgerText
