import Xtrax.CampaignLoop
import Xtrax.Lineage

/-!
# Every created campaign is concluded

Once `campaign_create` has returned, `campaign_conclude` should be tried exactly once and whatever
the loop raised should leave the campaign as it is.  Both hold as long as the hook for
`campaign_created`, which is called outside the guarded region, returns, the hooks return after a
loop that raised, the text of what it raised can be had, and the clean-up of the loop replaces
nothing; and only then (`concludes_iff`).
-/

namespace Xtrax.Controller

open Git BestSoFar Raising

variable {F : Type}

/-- How often `campaign_conclude` was tried. -/
def concludeAttempts (events : List CampaignEvent) : Nat :=
  events.countP fun ev => match ev.call with
    | .campaignConclude _ _ _ => true
    | _ => false

/-- The calls of a campaign that are there to tell others of it. -/
def CampaignCall.tells : CampaignCall → Bool
  | loopEvent _ => true
  | describe _ => true
  | _ => false

def CampaignCall.tellsCreation : CampaignCall → Bool
  | loopEvent event => event.kind == .campaignCreated
  | _ => false

/-- The collaborators of a kind have returned whenever they were called. -/
def Return (kind : CampaignCall → Bool) (events : List CampaignEvent) : Prop :=
  ∀ ev ∈ events, kind ev.call = true → ev.answer.toOption.isSome = true

section

variable (env : CampaignEnv) (lenv : LoopEnv F) (cfg : CampaignConfig F) (inner : LoopWorld F)

/-- The campaign is concluded once, and what was raised in the loop leaves the campaign. -/
structure Concludes : Prop where
  once : concludeAttempts (campaign env lenv cfg inner).2.events = 1
  unmasked : ∀ raised ∈ (loopEnd lenv cfg.loop inner).raised,
    (campaign env lenv cfg inner).1 = .error (loopRaised raised)

/-- The hooks that are called outside a guarded region return. -/
structure HooksReturn : Prop where
  created : Return CampaignCall.tellsCreation (campaign env lenv cfg inner).2.events
  failed : (loopEnd lenv cfg.loop inner).raised ≠ [] →
    Return CampaignCall.tells (campaign env lenv cfg inner).2.events
  /-- The watchdog's stop replaces no other exception. -/
  stop : ∀ raised ∈ (loopEnd lenv cfg.loop inner).raised,
    ∀ raised' ∈ (loopEnd lenv cfg.loop inner).raised, raised = raised'

end

section

variable {opening tail : List CampaignEvent}

theorem concludeAttempts_of_opening (h : ∀ ev ∈ opening, ev.call.opens = true) :
    concludeAttempts (opening ++ tail) = concludeAttempts tail := by
  have hzero : concludeAttempts opening = 0 := by
    refine List.countP_eq_zero.mpr fun ev hev => ?_
    have hopens := h ev hev
    cases hc : ev.call <;> simp_all [CampaignCall.opens]
  rw [concludeAttempts, List.countP_append]
  exact (congrArg (· + _) hzero).trans (Nat.zero_add _)

theorem return_of_opening {kind : CampaignCall → Bool}
    (hkind : ∀ c, kind c = true → c.opens = false) (h : ∀ ev ∈ opening, ev.call.opens = true) :
    Return kind (opening ++ tail) ↔ Return kind tail := by
  refine ⟨fun hr ev hev => hr ev (List.mem_append_right _ hev), fun hr ev hev hk => ?_⟩
  rcases List.mem_append.mp hev with hev | hev
  · exact nomatch (h ev hev).symm.trans (hkind _ hk)
  · exact hr ev hev hk

theorem return_cons {kind : CampaignCall → Bool} {ev : CampaignEvent} :
    Return kind (ev :: tail) ↔
      (kind ev.call = true → ev.answer.toOption.isSome = true) ∧ Return kind tail :=
  List.forall_mem_cons

theorem return_nil (kind : CampaignCall → Bool) : Return kind [] := nofun

theorem loopRaised_inj {r r' : Raised Call Exc} (h : loopRaised r = loopRaised r') : r = r' := by
  obtain ⟨e, source⟩ := r
  obtain ⟨e', source'⟩ := r'
  obtain ⟨he, hs⟩ := Raised.mk.inj h
  exact congr (congrArg Raised.mk he) (Option.map_injective (fun _ _ h => Sum.inr.inj h) hs)

theorem ownRaised_ne_loopRaised (c : CampaignCall) (e : Exc) (r : Raised Call Exc) :
    ownRaised c e ≠ loopRaised r := by
  intro h
  have hs := (Raised.mk.inj h).2
  cases hr : r.source with
  | none =>
    rw [hr] at hs
    exact nomatch hs
  | some c' =>
    rw [hr] at hs
    exact nomatch Option.some.inj hs

end

variable {env : CampaignEnv} {lenv : LoopEnv F} {cfg : CampaignConfig F} {inner : LoopWorld F}

/-- **When a created campaign is concluded, with no error masked.** -/
theorem concludes_iff (hcreated : Created (campaign env lenv cfg inner).2.events) :
    Concludes env lenv cfg inner ↔ HooksReturn env lenv cfg inner := by
  obtain ⟨campaignId, opening, tail, hevents, hopens, hcourse⟩ := course_of_created hcreated
  have htells : ∀ c : CampaignCall, c.tells = true → c.opens = false := by
    intro c hc
    cases c <;> first | rfl | exact nomatch hc
  have htellsCreation : ∀ c : CampaignCall, c.tellsCreation = true → c.opens = false := by
    intro c hc
    cases c <;> first | rfl | exact nomatch hc
  have hattempts : concludeAttempts (campaign env lenv cfg inner).2.events =
      concludeAttempts tail := by rw [hevents, concludeAttempts_of_opening hopens]
  have hcreatedReturn : Return CampaignCall.tellsCreation (campaign env lenv cfg inner).2.events ↔
      Return CampaignCall.tellsCreation tail := by rw [hevents, return_of_opening htellsCreation hopens]
  have hreturn : Return CampaignCall.tells (campaign env lenv cfg inner).2.events ↔
      Return CampaignCall.tells tail := by rw [hevents, return_of_opening htells hopens]
  suffices (concludeAttempts tail = 1 ∧ ∀ raised ∈ (loopEnd lenv cfg.loop inner).raised,
        (campaign env lenv cfg inner).1 = .error (loopRaised raised)) ↔
      (Return CampaignCall.tellsCreation tail ∧
        ((loopEnd lenv cfg.loop inner).raised ≠ [] → Return CampaignCall.tells tail) ∧
        ∀ raised ∈ (loopEnd lenv cfg.loop inner).raised,
          ∀ raised' ∈ (loopEnd lenv cfg.loop inner).raised, raised = raised') by
    constructor
    · rintro ⟨honce, hunmasked⟩
      obtain ⟨h₁, h₂, h₃⟩ := this.mp ⟨hattempts ▸ honce, hunmasked⟩
      exact ⟨hcreatedReturn.mpr h₁, fun h => hreturn.mpr (h₂ h), h₃⟩
    · rintro ⟨h₁, h₂, h₃⟩
      obtain ⟨honce, hunmasked⟩ := this.mpr ⟨hcreatedReturn.mp h₁, fun h => hreturn.mp (h₂ h), h₃⟩
      exact ⟨hattempts ▸ honce, hunmasked⟩
  generalize (campaign env lenv cfg inner).1 = result at hcourse ⊢
  have hraised : ∀ raised, (loopEnd lenv cfg.loop inner).result = .error raised →
      (loopEnd lenv cfg.loop inner).raised ≠ [] := fun raised h hnil =>
    List.not_mem_nil (hnil ▸ LoopEnd.mem_raised h)
  have hnone : ∀ r, (loopEnd lenv cfg.loop inner).result = .ok r →
      (loopEnd lenv cfg.loop inner).raised = [] := fun r h => LoopEnd.raised_eq_nil_iff.mpr ⟨r, h⟩
  cases hcourse with
  | createdHookRaised e =>
    refine ⟨(fun h => nomatch h.1), fun h => ?_⟩
    exact nomatch h.1 _ List.mem_cons_self rfl
  | describeRaised raised e hloop =>
    refine ⟨(fun h => nomatch h.1), fun h => ?_⟩
    exact nomatch h.2.1 (hraised _ hloop) _ (List.mem_cons_of_mem _ List.mem_cons_self) rfl
  | failed raised text answer kind hook hloop =>
    have hmem := LoopEnd.mem_raised hloop
    cases hook with
    | error e =>
      refine ⟨fun h => ?_, fun h => ?_⟩
      · exact absurd (Except.error.inj (h.2 _ hmem)) (ownRaised_ne_loopRaised _ _ _)
      · exact nomatch h.2.1 (hraised _ hloop) _ (List.mem_cons_of_mem _
          (List.mem_cons_of_mem _ (List.mem_cons_of_mem _ List.mem_cons_self))) rfl
    | ok _ =>
      refine ⟨fun h => ⟨?created, fun _ => ?tells, fun r hr r' hr' => ?_⟩,
        fun h => ⟨rfl, fun r hr => ?_⟩⟩
      case created | tells =>
        exact return_cons.mpr ⟨fun _ => rfl, return_cons.mpr ⟨fun _ => rfl,
          return_cons.mpr ⟨(fun h => nomatch h), return_cons.mpr ⟨fun _ => rfl, return_nil _⟩⟩⟩⟩
      · have hr := loopRaised_inj (Except.error.inj (h.2 r hr))
        have hr' := loopRaised_inj (Except.error.inj (h.2 r' hr'))
        exact hr.symm.trans hr'
      · rw [h.2.2 r hr _ hmem]
        rfl
  | concludeRaised r e hloop =>
    rw [hnone r hloop]
    refine ⟨fun _ => ⟨?_, fun h => absurd rfl h, by simp⟩, fun _ => ⟨rfl, by simp⟩⟩
    exact return_cons.mpr ⟨fun _ => rfl, return_cons.mpr ⟨(fun h => nomatch h), return_nil _⟩⟩
  | concluded r conclusion hook hloop =>
    rw [hnone r hloop]
    refine ⟨fun _ => ⟨?_, fun h => absurd rfl h, by simp⟩, fun _ => ⟨rfl, by simp⟩⟩
    exact return_cons.mpr ⟨fun _ => rfl, return_cons.mpr ⟨fun _ => rfl,
      return_cons.mpr ⟨(fun h => nomatch h), return_nil _⟩⟩⟩

/-! ### A campaign whose hook raises -/

/-- Gates that let the campaign pass, and hooks that return, but for the one for its creation. -/
def hooks (creation : Except Exc Unit) : CampaignEnv := fun _ call =>
  match call with
  | .capabilityProbe => .ok ⟨true, true⟩
  | .campaignCreate _ _ _ _ => .ok "c1"
  | .loopEvent event => if event.kind = .campaignCreated then creation else .ok ()
  | .describe e => .ok e.text
  | .campaignConclude campaignId _ _ => .ok ⟨"concluded", campaignId, ""⟩
  | .campaignApproval _ | .buildClosureManifest | .evaluatorCompleteness => .ok ()

/-- A watchdog that does not start. -/
def unwatched : LoopEnv ℕ := fun events call =>
  if call = .startWatchdog then .error (.of [.other "OSError"] "no such command")
  else collaborators (.ok ()) events call

def explorationCampaign : CampaignConfig ℕ := ⟨"t1", "ratchet", "", "", exploration⟩

theorem concludes_iff_unwatched :
    Created (campaign (hooks (.ok ())) unwatched explorationCampaign
      ⟨[], bareRepository⟩).2.events ∧
    (Concludes (hooks (.ok ())) unwatched explorationCampaign ⟨[], bareRepository⟩ ↔
      HooksReturn (hooks (.ok ())) unwatched explorationCampaign ⟨[], bareRepository⟩) := by
  have hcreated : Created (campaign (hooks (.ok ())) unwatched explorationCampaign
      ⟨[], bareRepository⟩).2.events :=
    ⟨"c1", _, _, _, _, List.mem_of_getElem? (i := 4) rfl⟩
  exact ⟨hcreated, concludes_iff hcreated⟩

/-- The hook for the creation raises, and nothing is concluded. -/
theorem unconcluded :
    ∃ creation : Except Exc Unit,
      Created (campaign (hooks creation) unwatched explorationCampaign
        ⟨[], bareRepository⟩).2.events ∧
      concludeAttempts (campaign (hooks creation) unwatched explorationCampaign
        ⟨[], bareRepository⟩).2.events = 0 :=
  ⟨.error (.of [.other "OSError"] "no space left on device"),
    ⟨"c1", _, _, _, _, List.mem_of_getElem? (i := 4) rfl⟩, rfl⟩

end Xtrax.Controller
