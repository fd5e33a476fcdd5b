import Xtrax.LedgerRecord
import Xtrax.Results

/-!
# A record is read back from its row

`readRowUpgrading` of what `to_dict` wrote is the record itself (`readRowUpgrading_toDict`), and the
row is one that the JSON text carries over (`shaped_toDict`), unless a string of the record holds
two surrogates in a pair or an integer has too many digits.
-/

namespace Xtrax.LedgerText

open List PyJson

/-! ### Lookups -/

theorem lookup_written {members : List (PyStr × PyVal)} (h : (members.map Prod.fst).Nodup)
    (k : PyStr) : (written members).lookup k = (members.lookup k).map PyVal.sortKeys := by
  have hnodup : ((members.map fun e => (e.1, e.2.sortKeys)).map Prod.fst).Nodup := by
    rw [map_map]
    exact h
  rw [Results.lookup_perm hnodup (written_perm h) k]
  exact Results.lookup_map PyVal.sortKeys k members

theorem mem_written {members : List (PyStr × PyVal)} (h : (members.map Prod.fst).Nodup)
    {e : PyStr × PyVal} (he : e ∈ written members) : e.1 ∈ members.map Prod.fst := by
  obtain ⟨e', he', rfl⟩ := exists_of_mem_written h he
  exact mem_map.mpr ⟨e', he', rfl⟩

theorem get_written {members : List (PyStr × PyVal)} (h : (members.map Prod.fst).Nodup)
    {key : String} {v : PyVal} (hv : members.lookup (py key) = some v) (default : PyVal) :
    get (written members) key default = v.sortKeys := by
  unfold get
  rw [lookup_written h, hv]
  rfl

theorem getItem_written {members : List (PyStr × PyVal)} (h : (members.map Prod.fst).Nodup)
    {key : String} {v : PyVal} (hv : members.lookup (py key) = some v) :
    getItem (written members) key = .ok v.sortKeys := by
  unfold getItem
  rw [lookup_written h, hv]
  rfl

/-! ### Values that are written as they are -/

theorem OptionalText.sortKeys {v : PyVal} (h : OptionalText v) : v.sortKeys = v := by
  rcases h with rfl | ⟨s, rfl⟩ <;> rfl

theorem Plain.sortKeys {v : PyVal} (h : Plain v) : v.sortKeys = v := by
  rcases h with rfl | ⟨b, rfl⟩ | ⟨s, rfl⟩ <;> rfl

theorem requireText_str {s : PyStr} (h : blank s = false) : requireText (.str s) = .ok s := by
  cases s with
  | nil => cases h
  | cons c s =>
    unfold requireText
    simp only [h]
    rfl

theorem written_sorted {β : Type} (d : SortedDict β) (f : β → PyVal)
    (hf : ∀ e ∈ d.entries, (f e.2).sortKeys = f e.2) :
    written (d.entries.map fun e => (e.1, f e.2)) = d.entries.map fun e => (e.1, f e.2) := by
  have hvalues : sortKeysEntries (d.entries.map fun e => (e.1, f e.2)) =
      d.entries.map fun e => (e.1, f e.2) := by
    rw [sortKeysEntries_eq_map, map_map]
    exact map_congr_left fun e he => congrArg (Prod.mk e.1) (hf e he)
  unfold written
  rw [hvalues]
  exact sortEntries_sorted (pairwise_map.mpr d.sorted)

theorem textDict_sortKeys (d : SortedDict PyStr) : (textDict d).sortKeys = textDict d :=
  congrArg PyVal.dict (written_sorted d PyVal.str fun _ _ => rfl)

theorem ofEntries_entries {β : Type} (d : SortedDict β) : SortedDict.ofEntries d.entries = d :=
  SortedDict.ext (sortEntries_sorted d.sorted)

/-! ### Each part read back -/

theorem mapM_textOf (entries : List (PyStr × PyStr)) :
    (entries.map fun e => (e.1, PyVal.str e.2)).mapM
        (fun e => (textOf e.2).map fun s => (e.1, s)) = some entries := by
  induction entries with
  | nil => rfl
  | cons e entries ih =>
    rw [map_cons, mapM_cons, ih]
    rfl

theorem distributionOf_textDict {d : SortedDict PyStr}
    (hknown : ∀ f ∈ d.entries, f.1 ∈ distributionFields)
    (hall : ∀ f ∈ distributionFields, f ∈ d.entries.map Prod.fst) :
    distributionOf (textDict d) = .ok d := by
  have hkeys : (d.entries.map fun e => (e.1, PyVal.str e.2)).map Prod.fst =
      d.entries.map Prod.fst := by
    rw [map_map]
    rfl
  unfold distributionOf textDict
  simp only
  rw [if_pos, mapM_textOf]
  · exact congrArg Except.ok (ofEntries_entries d)
  · refine ⟨fun e he => ?_, fun f hf => hkeys ▸ hall f hf⟩
    obtain ⟨f, hf, rfl⟩ := mem_map.mp he
    exact hknown f hf

theorem distributionsOf_dict {dd : SortedDict (SortedDict PyStr)}
    (h : ∀ e ∈ dd.entries, blank e.1 = false ∧
      (∀ f ∈ e.2.entries, f.1 ∈ distributionFields) ∧
        ∀ f ∈ distributionFields, f ∈ e.2.entries.map Prod.fst) :
    distributionsOf (.dict (dd.entries.map fun e => (e.1, textDict e.2))) = .ok dd := by
  have hfields : (dd.entries.map fun e => (e.1, textDict e.2)).mapM (fun e => do
      if blank e.1 then Except.error Raised.ledgerRecord
      else do
        let entry ← distributionOf e.2
        return (e.1, entry)) = .ok dd.entries := by
    rw [Results.mapM_eq_ok, forall₂_map_left_iff]
    refine forall₂_same.mpr fun e he => ?_
    obtain ⟨hblank, hknown, hall⟩ := h e he
    rw [hblank, distributionOf_textDict hknown hall]
    rfl
  unfold distributionsOf
  simp only
  rw [hfields]
  exact congrArg Except.ok (ofEntries_entries dd)

theorem contextOf_textDict (d : SortedDict PyStr) :
    contextOf { entries := d.entries.map fun e => (e.1, .str e.2) } = .ok d := by
  have hbad : (d.entries.map fun e => (e.1, PyVal.str e.2)).filter
      (fun e => (textOf e.2).isNone) = [] := by
    rw [filter_eq_nil_iff]
    intro e he
    obtain ⟨f, -, rfl⟩ := mem_map.mp he
    exact Bool.false_ne_true
  have hfields : (d.entries.map fun e => (e.1, PyVal.str e.2)).filterMap
      (fun e => (textOf e.2).map fun s => (e.1, s)) = d.entries := by
    rw [filterMap_map]
    exact filterMap_some
  unfold contextOf
  simp only
  rw [hbad, hfields, ofEntries_entries]
  rfl

theorem dictOf_dict (entries : List (PyStr × PyVal)) :
    dictOf (.dict entries) = .ok { entries := entries } := by
  cases entries with
  | nil => rfl
  | cons e entries => rfl

/-! ### The references -/

theorem IRRef.nodup_members (ref : IRRef) :
    (([(py "kind", .str ref.kind), (py "sha256", ref.sha256), (py "bytes", .int ref.bytes),
      (py "mode", .str (nameOf irModes ref.mode)), (py "reason", ref.reason)] :
        List (PyStr × PyVal)).map Prod.fst).Nodup := by
  show (map py ["kind", "sha256", "bytes", "mode", "reason"]).Nodup
  decide

theorem memberOf_mode (mode : IRMode) : memberOf irModes (.str (nameOf irModes mode)) = .ok mode := by
  cases mode <;> rfl

theorem irRefOf_toDict {ref : IRRef} (h : ref.Built) : irRefOf ref.toDict.sortKeys = .ok ref := by
  obtain ⟨kind, sha256, bytes, mode, reason⟩ := ref
  obtain ⟨hkind, ⟨sha, rfl, hsha⟩, hreason, hskipped⟩ := h
  have hnodup := IRRef.nodup_members ⟨kind, .str sha, bytes, mode, reason⟩
  have hlookup := lookup_written hnodup
  have hknown : ¬ ∃ e ∈ written [(py "kind", .str kind), (py "sha256", .str sha),
      (py "bytes", .int bytes), (py "mode", .str (nameOf irModes mode)), (py "reason", reason)],
      e.1 ∉ irFields := by
    rintro ⟨e, he, hnot⟩
    exact hnot (mem_written hnodup he)
  unfold IRRef.toDict
  rw [sortKeys_dict]
  unfold irRefOf
  simp only
  rw [if_neg hknown, hlookup, hlookup, hlookup,
    get_written hnodup (v := .str (nameOf irModes mode)) rfl,
    get_written hnodup (v := reason) rfl]
  show IRRef.make (.str kind) (.str sha) (.int bytes) (.str (nameOf irModes mode))
    reason.sortKeys = _
  rw [hreason.sortKeys]
  unfold IRRef.make
  rw [memberOf_mode, requireText_str hkind]
  have hcount : countOf (.int bytes) = .ok bytes := by
    unfold countOf
    simp only
    rw [if_neg (by omega), Int.toNat_natCast]
  rw [hcount]
  simp only [bind, Except.bind]
  by_cases hmode : mode = .skipped
  · obtain ⟨s, hs, hblank⟩ := hskipped hmode
    have hs : reason = .str s := hs
    subst hs
    rw [if_pos hmode, requireText_str hblank]
    rfl
  · rw [if_neg hmode]
    show (if sha.length = 64 then _ else _) = _
    rw [if_pos (hsha hmode)]
    rfl

theorem irOf_toDict {refs : List IRRef} (h : ∀ ref ∈ refs, ref.Built) :
    irOf (PyVal.list (refs.map IRRef.toDict)).sortKeys = .ok refs := by
  show (PyJson.sortKeysItems (refs.map IRRef.toDict)).mapM irRefOf = _
  rw [sortKeysItems_eq_map, map_map, Results.mapM_eq_ok, forall₂_map_left_iff]
  exact forall₂_same.mpr fun ref href => irRefOf_toDict (h ref href)

/-! ### The provenance -/

/-- The members of `RunProvenance.to_dict`. -/
def RunProvenance.members (p : RunProvenance) : List (PyStr × PyVal) :=
  (provenanceFields.map Prod.fst).zip p.values ++
    [(py "distributions", .dict (p.distributions.entries.map fun e => (e.1, textDict e.2)))]

theorem RunProvenance.keys_members {p : RunProvenance}
    (h : p.values.length = provenanceFields.length) :
    p.members.map Prod.fst = knownProvenance := by
  unfold RunProvenance.members knownProvenance
  rw [map_append, map_fst_zip]
  · rfl
  · rw [length_map, h]

theorem nodup_knownProvenance : knownProvenance.Nodup := by decide

theorem RunProvenance.nodup_members {p : RunProvenance}
    (h : p.values.length = provenanceFields.length) : (p.members.map Prod.fst).Nodup := by
  rw [RunProvenance.keys_members h]
  exact nodup_knownProvenance

theorem values_written {p : RunProvenance} (h : p.values.length = provenanceFields.length)
    (hplain : ∀ v ∈ p.values, Plain v) :
    provenanceFields.map (fun f => ((written p.members).lookup f.1).getD f.2) = p.values := by
  have hnodup := RunProvenance.nodup_members h
  apply ext_getElem
  · rw [length_map, h]
  · intro i hi hi'
    rw [length_map] at hi
    have hmem : (provenanceFields[i].1, p.values[i]) ∈ p.members := by
      refine mem_append_left _ (mem_iff_getElem.mpr ⟨i, ?_, ?_⟩)
      · rw [length_zip, length_map, h]
        exact lt_min hi hi
      · rw [getElem_zip, getElem_map]
    rw [getElem_map, lookup_written hnodup, (Results.lookup_eq_some hnodup).mpr hmem]
    exact (hplain _ (getElem_mem hi')).sortKeys

theorem distributions_written {p : RunProvenance} (h : p.values.length = provenanceFields.length) :
    get (written p.members) "distributions" (.dict []) =
      .dict (p.distributions.entries.map fun e => (e.1, textDict e.2)) := by
  have hnodup := RunProvenance.nodup_members h
  have hlookup : p.members.lookup (py "distributions") =
      some (.dict (p.distributions.entries.map fun e => (e.1, textDict e.2))) :=
    (Results.lookup_eq_some hnodup).mpr (mem_append_right _ mem_cons_self)
  rw [get_written hnodup hlookup]
  exact congrArg PyVal.dict
    (written_sorted p.distributions textDict fun e _ => textDict_sortKeys e.2)

/-! ### The row -/

variable {r : RunLedgerRecord}

theorem RunLedgerRecord.keys_members : r.members.map Prod.fst = knownFields := rfl

theorem RunLedgerRecord.nodup_members : (r.members.map Prod.fst).Nodup := by
  rw [RunLedgerRecord.keys_members]
  decide

theorem memberOf_kind (kind : RunKind) : memberOf runKinds (.str (nameOf runKinds kind)) = .ok kind := by
  cases kind <;> rfl

theorem memberOf_status (status : TelemetryStatus) :
    memberOf statuses (.str (nameOf statuses status)) = .ok status := by
  cases status <;> rfl

theorem upgradeRow_toDict (h : r.Built) : upgradeRow r.toDict.sortKeys = .ok (written r.members) := by
  have hversion : get (written r.members) "schema_version" = .int currentVersion := by
    rw [get_written RunLedgerRecord.nodup_members (v := .int r.schemaVersion) rfl, h.schemaVersion]
    rfl
  unfold RunLedgerRecord.toDict
  rw [sortKeys_dict]
  unfold upgradeRow
  simp only [hversion]
  rfl

theorem make_built (h : r.Built) :
    RunLedgerRecord.make (.str r.runId) (.str (nameOf runKinds r.kind)) r.derivedFrom
      (.str (nameOf statuses r.telemetryStatus)) r.statusReason
      { entries := r.context.entries.map fun e => (e.1, .str e.2) } r.ir r.schemaVersion r.ts
      r.provenance = .ok r := by
  have hderived : checkDerived r.derivedFrom r.runId = .ok () := by
    rcases h.derivedFrom with hd | ⟨s, hd⟩
    · rw [hd]; rfl
    · obtain ⟨hblank, hne⟩ := h.parent s hd
      rw [hd]
      unfold checkDerived
      simp only
      rw [if_neg]
      rintro (hb | hb)
      · rw [hblank] at hb
        cases hb
      · exact hne hb
  have hstatus : checkStatus r.telemetryStatus r.statusReason = .ok () := by
    unfold checkStatus
    by_cases hc : r.telemetryStatus = .complete
    · exact if_pos hc
    · obtain ⟨s, hs, hblank⟩ := h.status hc
      rw [if_neg hc, hs, requireText_str hblank]
      rfl
  unfold RunLedgerRecord.make
  refine Results.bind_eq_ok.mpr ⟨_, requireText_str h.runId, ?_⟩
  refine Results.bind_eq_ok.mpr ⟨_, memberOf_kind r.kind, ?_⟩
  refine Results.bind_eq_ok.mpr ⟨_, memberOf_status r.telemetryStatus, ?_⟩
  refine Results.bind_eq_ok.mpr ⟨_, hderived, ?_⟩
  refine Results.bind_eq_ok.mpr ⟨_, hstatus, ?_⟩
  exact Results.bind_eq_ok.mpr ⟨_, contextOf_textDict r.context, rfl⟩

/-- **A record is read back from what `to_dict` wrote.** -/
theorem readRowUpgrading_toDict (h : r.Built) : readRowUpgrading r.toDict.sortKeys = .ok r := by
  have hnodup := RunLedgerRecord.nodup_members (r := r)
  have hlength := h.values.1
  have hknown : ¬ ∃ e ∈ written r.members, e.1 ∉ knownFields := by
    rintro ⟨e, he, hnot⟩
    exact hnot (mem_written hnodup he)
  have hprov : get (written r.members) "provenance" = .dict (written r.provenance.members) :=
    get_written hnodup (v := r.provenance.toDict) rfl .none
  have hunknown : ((written r.provenance.members).map Prod.fst).filter
      (fun k => k ∉ knownProvenance) = [] := by
    rw [filter_eq_nil_iff]
    intro k hk
    obtain ⟨e, he, rfl⟩ := mem_map.mp hk
    have hmem := mem_written (RunProvenance.nodup_members hlength) he
    rw [RunProvenance.keys_members hlength] at hmem
    simpa using hmem
  have hir : irOf (get (written r.members) "ir" (.list [])) = .ok r.ir := by
    rw [get_written hnodup (v := .list (r.ir.map IRRef.toDict)) rfl]
    exact irOf_toDict h.ir
  have hcontext : get (written r.members) "context" =
      .dict (r.context.entries.map fun e => (e.1, .str e.2)) := by
    rw [get_written hnodup (v := textDict r.context) rfl, textDict_sortKeys]
    rfl
  have hmake : RunProvenance.make (written r.provenance.members) = .ok r.provenance := by
    unfold RunProvenance.make
    rw [distributions_written hlength, distributionsOf_dict h.distributions]
    simp only [bind, Except.bind, pure, Except.pure, values_written hlength h.values.2]
  have hts : getItem (written r.members) "ts" = .ok r.ts := by
    obtain ⟨ts, hts⟩ := h.ts
    rw [getItem_written hnodup (v := r.ts) rfl, hts]
    rfl
  have hderived : get (written r.members) "derived_from" = r.derivedFrom := by
    rw [get_written hnodup (v := r.derivedFrom) rfl, h.derivedFrom.sortKeys]
  have hreason : get (written r.members) "status_reason" = r.statusReason := by
    rw [get_written hnodup (v := r.statusReason) rfl, h.statusReason.sortKeys]
  have hstatus : get (written r.members) "telemetry_status" (.str (py "complete")) =
      .str (nameOf statuses r.telemetryStatus) :=
    get_written hnodup (v := .str (nameOf statuses r.telemetryStatus)) rfl _
  unfold readRowUpgrading
  refine Results.bind_eq_ok.mpr ⟨_, upgradeRow_toDict h, ?_⟩
  unfold RunLedgerRecord.fromDict
  rw [if_neg hknown]
  refine Results.bind_eq_ok.mpr ⟨{ entries := written r.provenance.members }, ?_, ?_⟩
  · rw [hprov, dictOf_dict]
  refine Results.bind_eq_ok.mpr ⟨(), by rw [hunknown]; rfl, ?_⟩
  refine Results.bind_eq_ok.mpr ⟨r.ir, by rw [hir]; rfl, ?_⟩
  refine Results.bind_eq_ok.mpr ⟨_, getItem_written hnodup (v := .str r.runId) rfl, ?_⟩
  refine Results.bind_eq_ok.mpr
    ⟨_, getItem_written hnodup (v := .str (nameOf runKinds r.kind)) rfl, ?_⟩
  refine Results.bind_eq_ok.mpr
    ⟨{ entries := r.context.entries.map fun e => (e.1, .str e.2) }, ?_, ?_⟩
  · rw [hcontext, dictOf_dict]
  refine Results.bind_eq_ok.mpr ⟨_, hts, ?_⟩
  refine Results.bind_eq_ok.mpr ⟨_, hmake, ?_⟩
  rw [hderived, hstatus, hreason, ← h.schemaVersion]
  exact make_built h

/-! ### The row as a JSON value -/

theorem OptionalText.shaped {v : PyVal} (h : OptionalText v) (depth : Nat) : Shaped depth v := by
  rcases h with rfl | ⟨s, rfl⟩
  · exact .none
  · exact .str s

theorem Plain.shaped {v : PyVal} (h : Plain v) (depth : Nat) : Shaped depth v := by
  rcases h with rfl | ⟨b, rfl⟩ | ⟨s, rfl⟩
  · exact .none
  · exact .bool b
  · exact .str s

theorem shaped_sorted {β : Type} {depth : Nat} (d : SortedDict β) {f : β → PyVal}
    (h : ∀ e ∈ d.entries, Shaped depth (f e.2)) :
    Shaped (depth + 1) (.dict (d.entries.map fun e => (e.1, f e.2))) := by
  refine .dict ?_ fun e he => ?_
  · rw [map_map]
    refine pairwise_map.mpr (d.sorted.imp fun hlt heq => ?_)
    rw [show (_ : PyStr × β).1 = _ from heq] at hlt
    exact lt_irrefl _ hlt
  · obtain ⟨f, hf, rfl⟩ := mem_map.mp he
    exact h f hf

theorem textDict_shaped (d : SortedDict PyStr) (depth : Nat) : Shaped (depth + 1) (textDict d) :=
  shaped_sorted d fun e _ => .str e.2

theorem IRRef.Built.shaped {ref : IRRef} (h : ref.Built) (depth : Nat) :
    Shaped (depth + 1) ref.toDict := by
  refine .dict ref.nodup_members fun e he => ?_
  obtain ⟨sha, hsha, -⟩ := h.sha256
  simp only [mem_cons, not_mem_nil, or_false] at he
  rcases he with rfl | rfl | rfl | rfl | rfl
  · exact .str _
  · exact hsha ▸ .str sha
  · exact .int _
  · exact .str _
  · exact h.reason.shaped depth

theorem RunLedgerRecord.Built.shaped_provenance (h : r.Built) (depth : Nat) :
    Shaped (depth + 3) r.provenance.toDict := by
  refine .dict (RunProvenance.nodup_members h.values.1) fun e he => ?_
  rcases mem_append.mp he with he | he
  · exact (h.values.2 e.2 (of_mem_zip he).2).shaped (depth + 2)
  · obtain rfl := mem_singleton.mp he
    exact shaped_sorted r.provenance.distributions fun e _ => textDict_shaped e.2 depth

/-- **A record's row** has four levels, no float, and every key once. -/
theorem shaped_toDict (h : r.Built) (depth : Nat) : Shaped (depth + 4) r.toDict := by
  refine .dict RunLedgerRecord.nodup_members fun e he => ?_
  obtain ⟨ts, hts⟩ := h.ts
  simp only [RunLedgerRecord.members, mem_cons, not_mem_nil, or_false] at he
  rcases he with rfl | rfl | rfl | rfl | rfl | rfl | rfl | rfl | rfl | rfl
  · exact .int _
  · exact .str _
  · exact .str _
  · exact h.derivedFrom.shaped (depth + 3)
  · exact hts ▸ .str ts
  · exact .str _
  · exact h.statusReason.shaped (depth + 3)
  · exact textDict_shaped r.context (depth + 2)
  · exact h.shaped_provenance depth
  · refine .list fun v hv => ?_
    obtain ⟨ref, href, rfl⟩ := mem_map.mp hv
    exact (h.ir ref href).shaped (depth + 1)

end Xtrax.LedgerText
