import Xtrax.MultiIterationLoop

/-!
# The ref and the best fitness

A candidate is promoted when its run succeeded, its stats did not block it and the ratchet judged
it better than the candidate promoted before.  All three are in the answers of the collaborators
(`candidates`), and with them what the ref should name and what the best fitness should be
(`Lineage`).

In a run in which no call that comes after the verdict raises a `CandidateRunFailedError`, the
ref and the best fitness are so at every dispatch (`lineage_in_step`).  If one does, the loop
takes a candidate it has promoted for a failed one (`promoted_as_failed`).
-/

namespace Xtrax.Controller

open Option Git BestSoFar Raising

variable {F : Type}

/-! ### Candidates -/

/-- A candidate that was dispatched, and what the calls since then have told about it. -/
structure Candidate (F : Type) where
  handoff : CandidateHandoff
  run : Option CandidateRunResult
  fitness : Option F
  statsPass : Option Bool

/-- What the answer to a call tells about the candidate dispatched last. -/
def Candidate.observe (c : Candidate F) :
    (call : Call) → Except Exc (Answer F call) → Candidate F
  | .adapterRun _ _, .ok run => { c with run := some run }
  | .guardedEvaluate _, .ok fitness => { c with fitness := some fitness }
  | .statsBattery, .ok pass => { c with statsPass := some pass }
  | _, _ => c

/-- The candidates, the last one first, after another call. -/
def observe : List (Candidate F) → Event Call (Answer F) Exc → List (Candidate F)
  | cs, ⟨.dispatchCandidate, .ok handoff⟩ => ⟨handoff, none, none, none⟩ :: cs
  | [], _ => []
  | c :: cs, ⟨call, answer⟩ => c.observe call answer :: cs

/-- The candidates dispatched in a run, the last one first. -/
def candidates (events : List (Event Call (Answer F) Exc)) : List (Candidate F) :=
  events.foldl observe []

@[simp] theorem candidates_append (es : List (Event Call (Answer F) Exc))
    (ev : Event Call (Answer F) Exc) : candidates (es ++ [ev]) = observe (candidates es) ev :=
  List.foldl_append ..

@[simp] theorem observe_error (cs : List (Candidate F)) (call : Call) (e : Exc) :
    observe cs ⟨call, .error e⟩ = cs := by
  cases cs with
  | nil => cases call <;> rfl
  | cons c cs => cases call <;> rfl

theorem observe_of_not_telling (cs : List (Candidate F)) {ev : Event Call (Answer F) Exc}
    (h : ev.call.telling = false) : observe cs ev = cs := by
  obtain ⟨call, e | answer⟩ := ev
  · exact observe_error cs call e
  · cases cs with
    | nil => cases call <;> first | rfl | cases h
    | cons c cs => cases call <;> first | rfl | cases h

/-- The ratchet judges the fitness an improvement; a first candidate is accepted unjudged. -/
def Config.ImprovedOver (cfg : Config F) (best : Option F) (fitness : F) : Prop :=
  match best with
  | none => True
  | some best => ∃ decision,
      cfg.computeRatchetDecision fitness best cfg.higherIsBetter = .ok decision ∧
        decision.improved = true

/-- The run succeeded, the stats did not block the candidate and the ratchet judged it improved
over `best`. -/
structure Candidate.Promotable (c : Candidate F) (cfg : Config F) (best : Option F)
    (fitness : F) : Prop where
  run : ∃ run, c.run = some run ∧ run.success = true
  scored : c.fitness = some fitness
  stats : ∃ pass, c.statsPass = some pass ∧ assessStatsBatteryVerdict pass cfg.campaignMode = false
  improved : cfg.ImprovedOver best fitness

/-- What the ref and the best fitness come to after these candidates, the last one first: each
promotable one is a commit over the one promoted before, or over the bootstrap commit. -/
inductive Lineage (cfg : Config F) (hashed : List (String × String)) :
    List (Candidate F) → Option Commit → Option F → Prop
  | start : Lineage cfg hashed [] none none
  | promoted {cs c tip best fitness base path contents commit} :
      Lineage cfg hashed cs tip best → c.Promotable cfg best fitness →
      cfg.bootstrapCommitSha = some base → cfg.candidateTargetPath = some path →
      (c.handoff.path, contents) ∈ hashed → commit.parent = tip.or cfg.bootstrapCommitSha →
      commit.tree = base.tree.insert path ⟨"100644", contents⟩ →
      Lineage cfg hashed (c :: cs) (some commit) (some fitness)
  | passedOver {cs c tip best} :
      Lineage cfg hashed cs tip best → (∀ fitness, ¬ c.Promotable cfg best fitness) →
      Lineage cfg hashed (c :: cs) tip best

section

variable {cfg : Config F} {hashed hashed' : List (String × String)} {cs : List (Candidate F)}
variable {tip : Option Commit} {best : Option F}

theorem Lineage.mono (h : Lineage cfg hashed cs tip best) (hh : ∀ f ∈ hashed, f ∈ hashed') :
    Lineage cfg hashed' cs tip best := by
  induction h with
  | start => exact .start
  | promoted _ hc hbase hpath hmem hparent htree ih =>
    exact .promoted ih hc hbase hpath (hh _ hmem) hparent htree
  | passedOver _ hc ih => exact .passedOver ih hc

theorem Lineage.tree {commit : Commit} (h : Lineage cfg hashed cs (some commit) best) :
    ∃ base path contents, cfg.bootstrapCommitSha = some base ∧ cfg.candidateTargetPath = some path ∧
      commit.tree = base.tree.insert path ⟨"100644", contents⟩ := by
  induction cs with
  | nil => exact nomatch h
  | cons c cs ih =>
    cases h with
    | promoted _ _ hbase hpath _ _ htree => exact ⟨_, _, _, hbase, hpath, htree⟩
    | passedOver h _ => exact ih h

theorem Lineage.isSome_iff (h : Lineage cfg hashed cs tip best) : tip.isSome = best.isSome := by
  induction h with
  | start => rfl
  | promoted => rfl
  | passedOver _ _ ih => exact ih

end

/-! ### Calm runs -/

/-- The calls that come after the verdict on a candidate. -/
def Call.afterVerdict : Call → Bool
  | seedTrialCounts _ => true
  | git _ => true
  | admitEvidence _ => true
  | measureTwoPhaseTiming _ => true
  | assertNoCompileTimeRegression => true
  | _ => false

/-- A call after the verdict raised it. -/
def RaisedLate (events : List (Event Call (Answer F) Exc)) (e : Exc) : Prop :=
  ∃ ev ∈ events, ev.call.afterVerdict = true ∧ AnswerRaises ev.call ev.answer e

/-- No call after the verdict has raised a `CandidateRunFailedError`, or the loop skips none. -/
def Calm (cfg : Config F) (events : List (Event Call (Answer F) Exc)) : Prop :=
  cfg.campaignMode ≠ .confirmation →
    ∀ e, RaisedLate events e → e.isInstance .candidateRunFailedError = false

theorem RaisedLate.append {es : List (Event Call (Answer F) Exc)} {e : Exc}
    (h : RaisedLate es e) (ev : Event Call (Answer F) Exc) : RaisedLate (es ++ [ev]) e := by
  obtain ⟨ev', hmem, hlate, hraises⟩ := h
  exact ⟨ev', List.mem_append_left _ hmem, hlate, hraises⟩

theorem RaisedLate.last {es : List (Event Call (Answer F) Exc)} {e : Exc} {c : Call}
    (hc : c.afterVerdict = true) (hgit : ∀ command, c ≠ .git command) :
    RaisedLate (es ++ [⟨c, .error e⟩]) e := by
  refine ⟨⟨c, .error e⟩, List.mem_append_right _ List.mem_cons_self, hc, ?_⟩
  cases c with
  | git command => exact absurd rfl (hgit command)
  | _ => rfl

theorem Calm.of_append {cfg : Config F} {es : List (Event Call (Answer F) Exc)}
    {ev : Event Call (Answer F) Exc} (h : Calm cfg (es ++ [ev])) : Calm cfg es :=
  fun hmode e he => h hmode e (he.append ev)

/-! ### Through a pass -/

/-- As far as the run was calm, the ref and the best fitness are those of its candidates. -/
def InStep (cfg : Config F) (best : Option F) (w : LoopWorld F) : Prop :=
  Calm cfg w.events →
    Lineage cfg w.vars.hashed (candidates w.events) (w.vars.refs cfg.ratchetRefName) best

/-- In the pass of the candidate `c`, begun in `r₀` after the candidates `prev`, with no move of
the ref so far. -/
structure Midway (cfg : Config F) (r₀ : Repository) (best : Option F) (prev : List (Candidate F))
    (c : Candidate F) (w : LoopWorld F) : Prop where
  lineage : Calm cfg w.events → Lineage cfg w.vars.hashed prev (r₀.refs cfg.ratchetRefName) best
  candidates : candidates w.events = c :: prev
  sameRef : SameRef cfg.ratchetRefName r₀ w.vars

/-- The ref moved on by the accept branch of a pass begun in `r₀`, and by nothing else. -/
def Advanced (cfg : Config F) (r₀ r : Repository) : Prop :=
  ∃ s s' handoff derivedFrom commit, SameRef cfg.ratchetRefName r₀ s ∧
    AdvancedBy cfg.target handoff.path (commitMessage handoff derivedFrom) s s' commit ∧
    SameRef cfg.ratchetRefName s' r

/-- A pass begun in `r₀` that raised. -/
structure PassRaised (cfg : Config F) (r₀ : Repository) (best : Option F)
    (raised : Raised Call Exc) (w : LoopWorld F) : Prop where
  /-- If the loop goes on to the next candidate, the loop and the ref are in step. -/
  inStep : raised.exc.isInstance .candidateRunFailedError = true →
    cfg.campaignMode ≠ .confirmation → InStep cfg best w
  ref : SameRef cfg.ratchetRefName r₀ w.vars ∨ Advanced cfg r₀ w.vars

section

variable {env : LoopEnv F} {cfg : Config F} {r₀ : Repository} {best : Option F}
variable {prev : List (Candidate F)} {c c' : Candidate F} {w : LoopWorld F}
variable {raised : Raised Call Exc}

theorem inert_inStep : Inert cfg.ratchetRefName (InStep cfg best) where
  event _ _ hev h hcalm := by
    rw [candidates_append, observe_of_not_telling _ hev]
    exact h hcalm.of_append
  vars _ _ hr h hcalm := hr.refs ▸ (h hcalm).mono hr.hashed

theorem InStep.error (h : InStep cfg best w) (call : Call) (e : Exc) :
    InStep cfg best { w with events := w.events ++ [⟨call, .error e⟩] } := by
  intro hcalm
  rw [candidates_append, observe_error]
  exact h hcalm.of_append

theorem Midway.event (h : Midway cfg r₀ best prev c w) (ev : Event Call (Answer F) Exc)
    (hc : observe (c :: prev) ev = c' :: prev) :
    Midway cfg r₀ best prev c' { w with events := w.events ++ [ev] } where
  lineage hcalm := h.lineage hcalm.of_append
  candidates := by rw [candidates_append, h.candidates, hc]
  sameRef := h.sameRef

theorem inert_midway : Inert cfg.ratchetRefName (Midway cfg r₀ best prev c) where
  event _ ev hev h := h.event ev (observe_of_not_telling _ hev)
  vars _ _ hr h := ⟨fun hcalm => (h.lineage hcalm).mono hr.hashed, h.candidates, h.sameRef.trans hr⟩

theorem inert_advanced : Inert cfg.ratchetRefName fun w : LoopWorld F => Advanced cfg r₀ w.vars where
  event _ _ _ h := h
  vars := by
    rintro w r hr ⟨s, s', handoff, derivedFrom, commit, hs, hadvance, hs'⟩
    exact ⟨s, s', handoff, derivedFrom, commit, hs, hadvance, hs'.trans hr⟩

theorem Midway.inStep (h : Midway cfg r₀ best prev c w)
    (hc : ∀ fitness, ¬ c.Promotable cfg best fitness) : InStep cfg best w := by
  intro hcalm
  rw [h.candidates, h.sameRef.refs]
  exact .passedOver (h.lineage hcalm) hc

theorem Candidate.not_promotable (hc : c.statsPass = none) (fitness : F) :
    ¬ c.Promotable cfg best fitness := by
  rintro ⟨-, -, ⟨pass, hpass, -⟩, -⟩
  exact nomatch hc.symm.trans hpass

theorem Midway.raised_early (h : Midway cfg r₀ best prev c w) (hc : c.statsPass = none) :
    PassRaised cfg r₀ best raised w :=
  ⟨fun _ _ => h.inStep fun fitness => c.not_promotable hc fitness, .inl h.sameRef⟩

theorem PassRaised.late (hexc : RaisedLate w.events raised.exc ∨
      raised.exc.isInstance .candidateRunFailedError = false)
    (href : SameRef cfg.ratchetRefName r₀ w.vars ∨ Advanced cfg r₀ w.vars) :
    PassRaised cfg r₀ best raised w := by
  refine ⟨fun hfailed hmode hcalm => ?_, href⟩
  have hnot : raised.exc.isInstance .candidateRunFailedError = false :=
    hexc.elim (fun hlate => hcalm hmode _ hlate) fun h => h
  exact absurd hfailed (by rw [hnot]; exact Bool.false_ne_true)

/-! ### The steps of a pass -/

theorem wp_runCandidate (hc : c.statsPass = none) (hw : Midway cfg r₀ best prev c w) :
    wp (runCandidate env cfg c.handoff)
      (fun p w => p.2.success = true ∧ Midway cfg r₀ best prev { c with run := some p.2 } w)
      (PassRaised cfg r₀ best) w := by
  have hE : ∀ raised t, Midway cfg r₀ best prev c t → PassRaised cfg r₀ best raised t :=
    fun _ _ ht => ht.raised_early hc
  unfold runCandidate
  refine (inert_midway.ask rfl).wp_bind hw (fun _ t ht => ?_) hE
  refine (inert_midway.ask rfl).wp_bind ht (fun _ t ht => ?_) hE
  refine (inert_midway.ask rfl).wp_bind ht (fun _ t ht => ?_) hE
  refine (inert_midway.ask rfl).wp_bind ht (fun _ t ht => ?_) hE
  refine (resolveDerivedFrom_keeps _).wp_bind ht (fun derivedFrom t ht => ?_) hE
  rw [wp_bind]
  refine wp_ask_of (fun run => ?_) fun e => (ht.event _ (observe_error _ _ e)).raised_early hc
  have hrun := ht.event ⟨.adapterRun c.handoff.path derivedFrom, .ok run⟩ rfl
  rw [wp_ite]
  split
  · rename_i hsuccess
    exact ⟨hsuccess, hrun⟩
  · exact hrun.raised_early hc

theorem wp_scoreCandidate (hc : c.statsPass = none) (hw : Midway cfg r₀ best prev c w)
    (handoff : CandidateHandoff) (runResult : CandidateRunResult) (n : Nat) :
    wp (scoreCandidate env cfg handoff runResult n)
      (fun fitness => Midway cfg r₀ best prev { c with fitness := some fitness })
      (PassRaised cfg r₀ best) w := by
  have hE : ∀ c : Candidate F, c.statsPass = none → ∀ raised t,
      Midway cfg r₀ best prev c t → PassRaised cfg r₀ best raised t :=
    fun _ hc _ _ ht => ht.raised_early hc
  have hrest : ∀ t, Midway cfg r₀ best prev c t → wp (do
      if cfg.outputPaths = [] then
        raise (.valueError "output_paths must be non-empty to score a candidate's raw artifacts")
      let fitness ← ask env (.guardedEvaluate cfg.outputPaths)
      if runResult.runId = "" then
        raise (.valueError "run_id must be non-empty to attest metrics provenance")
      ask env (.verifyMetricsProvenance runResult.runId)
      ask env (.writeMetricsProvenance runResult.runId)
      ask env (.buildSanctionedEnvelope n)
      pure fitness)
      (fun fitness => Midway cfg r₀ best prev { c with fitness := some fitness })
      (PassRaised cfg r₀ best) t := by
    intro t ht
    rw [wp_ite]
    split
    · exact hE c hc _ _ ht
    rw [wp_bind]
    refine wp_ask_of (fun fitness => ?_) fun e => hE c hc _ _ (ht.event _ (observe_error _ _ e))
    have hscored := ht.event ⟨.guardedEvaluate cfg.outputPaths, .ok fitness⟩ rfl
    have hE' := hE { c with fitness := some fitness } hc
    rw [wp_ite]
    split
    · exact hE' _ _ hscored
    refine (inert_midway.ask rfl).wp_bind hscored (fun _ t ht => ?_) hE'
    refine (inert_midway.ask rfl).wp_bind ht (fun _ t ht => ?_) hE'
    exact (inert_midway.ask rfl).wp_bind ht (fun _ t ht => ht) hE'
  unfold scoreCandidate
  rw [wp_ite]
  split
  · exact (inert_midway.ask rfl).wp_bind hw (fun _ t ht => hrest t ht) (hE c hc)
  · exact hrest w hw

theorem wp_decideRatchet {I : LoopWorld F → Prop} (hI : Inert cfg.ratchetRefName I) (hw : I w)
    (fitness : F) :
    wp (decideRatchet env cfg best (best.map fun _ => cfg.higherIsBetter) fitness)
      (fun decision w => I w ∧ (decision.improved = true ↔ cfg.ImprovedOver best fitness))
      (fun _ => I) w := by
  unfold decideRatchet
  cases best with
  | none =>
    have haccepts : automaticAccept.improved = true ↔ cfg.ImprovedOver none fitness :=
      ⟨fun _ => trivial, fun _ => rfl⟩
    dsimp only [map_none]
    rw [wp_ite]
    split
    · exact ⟨hw, haccepts⟩
    · refine (hI.readBestSoFar _).wp_bind hw (fun prior t ht => ?_) fun _ _ ht => ht
      cases prior with
      | none => exact ⟨ht, haccepts⟩
      | some commit => exact ht
  | some best =>
    dsimp only [map_some]
    cases hdecision : cfg.computeRatchetDecision fitness best cfg.higherIsBetter with
    | error e => exact hw
    | ok decision =>
      refine ⟨hw, fun himproved => ⟨decision, hdecision, himproved⟩, ?_⟩
      rintro ⟨decision', hdecision', himproved⟩
      obtain rfl := Except.ok.inj (hdecision.symm.trans hdecision')
      exact himproved

theorem wp_assessSeedTrialFloor {I : LoopWorld F → Prop} (hw : I w) (counts : SeedTrialCounts)
    (mode : CampaignMode) :
    wp (assessSeedTrialFloor counts mode) (fun _ => I)
      (fun raised w => I w ∧ raised.exc.isInstance .candidateRunFailedError = false) w := by
  unfold assessSeedTrialFloor
  rw [wp_ite]
  split
  · exact ⟨hw, rfl⟩
  rw [wp_ite]
  split
  · exact ⟨hw, rfl⟩
  · exact hw

/-- Evidence, timing and the record move no ref, and what they raise was raised late. -/
theorem wp_afterLineage {I : LoopWorld F → Prop} (hI : Inert cfg.ratchetRefName I) (hw : I w)
    (r : OneCandidatePassResult F) :
    wp (afterLineage env cfg r) (fun _ => I)
      (fun raised w => I w ∧ RaisedLate w.events raised.exc) w := by
  have hrest : ∀ t, I t → wp (do
      ask env (.measureTwoPhaseTiming r.handoff.path)
      ask env .assertNoCompileTimeRegression
      if cfg.probeRecordDir then
        let _ ← (attempt (ask env (.emitProbeRecord r.accepted)) : Loop F _))
      (fun _ => I) (fun raised w => I w ∧ RaisedLate w.events raised.exc) t := by
    intro t ht
    rw [wp_bind]
    refine wp_ask_of (fun _ => ?_) fun e => ⟨hI.event _ _ rfl ht, .last rfl nofun⟩
    rw [wp_bind]
    refine wp_ask_of (fun _ => ?_) fun e =>
      ⟨hI.event _ _ rfl (hI.event _ _ rfl ht), .last rfl nofun⟩
    have ht' := hI.event _ ⟨.assertNoCompileTimeRegression, .ok ()⟩ rfl
      (hI.event _ ⟨.measureTwoPhaseTiming r.handoff.path, .ok ()⟩ rfl ht)
    rw [wp_ite]
    split
    · rw [wp_bind, wp_attempt]
      exact wp_ask_of (fun _ => hI.event _ _ rfl ht') fun _ => hI.event _ _ rfl ht'
    · exact ht'
  unfold afterLineage
  rw [wp_ite]
  split
  · rw [wp_bind, wp_attempt]
    refine wp_ask_of (fun _ => hrest _ (hI.event _ _ rfl hw)) fun e => ?_
    dsimp only
    rw [wp_ite]
    split
    · exact hrest _ (hI.event _ _ rfl hw)
    · exact ⟨hI.event _ _ rfl hw, .last rfl nofun⟩
  · exact hrest w hw

/-- A pass begun in `r₀` that came to its end. -/
structure Settled (cfg : Config F) (r₀ : Repository) (best : Option F)
    (r : OneCandidatePassResult F) (w : LoopWorld F) : Prop where
  inStep : InStep cfg (if r.accepted then some r.fitnessDict else best) w
  ref : (r.accepted = false ∧ SameRef cfg.ratchetRefName r₀ w.vars) ∨
    (r.accepted = true ∧ Advanced cfg r₀ w.vars)

theorem inert_settled {r : OneCandidatePassResult F} :
    Inert cfg.ratchetRefName (Settled cfg r₀ best r) where
  event w ev hev h := ⟨inert_inStep.event w ev hev h.inStep, h.ref⟩
  vars w r' hr h := by
    refine ⟨inert_inStep.vars w r' hr h.inStep, ?_⟩
    rcases h.ref with ⟨hr', hsame⟩ | ⟨hr', hadvanced⟩
    · exact .inl ⟨hr', hsame.trans hr⟩
    · exact .inr ⟨hr', inert_advanced.vars w r' hr hadvanced⟩

theorem Lineage.advance {s r : Repository} {handoffPath message : String} {commit : Commit}
    {fitness : F} (htree : cfg.commitTreeSha = none)
    (h : Lineage cfg r.hashed prev (s.refs cfg.ratchetRefName) best)
    (hc : c.Promotable cfg best fitness) (hpath : c.handoff.path = handoffPath)
    (hadvance : AdvancedBy cfg.target handoffPath message s r commit) :
    Lineage cfg r.hashed (c :: prev) (some commit) (some fitness) := by
  subst hpath
  obtain ⟨parent, hparent, hprior⟩ := hadvance.parent
  have hgives := hadvance.tree
  rw [Target.Gives, show cfg.target.commitTreeSha = none from htree] at hgives
  obtain ⟨path, hpath, onto, contents, hover, hmem, hcommit⟩ := hgives
  have hhashed : (c.handoff.path, contents) ∈ r.hashed := by
    rw [hadvance.repository]
    exact hmem
  have hbase : ∃ base, cfg.bootstrapCommitSha = some base ∧
      commit.tree = base.tree.insert path ⟨"100644", contents⟩ := by
    change (s.refs cfg.ratchetRefName).or cfg.bootstrapCommitSha = some onto at hover
    cases htip : s.refs cfg.ratchetRefName with
    | none =>
      rw [htip] at hover
      exact ⟨onto, hover, hcommit⟩
    | some tip =>
      -- the candidate before is overwritten at the same path
      rw [htip] at hover h
      obtain rfl := some.inj hover
      obtain ⟨base, path', contents', hbase, hpath', htip'⟩ := h.tree
      obtain rfl := some.inj (hpath.symm.trans hpath')
      exact ⟨base, hbase, by rw [hcommit, htip', Finmap.insert_insert]⟩
  obtain ⟨base, hbase, htree'⟩ := hbase
  exact .promoted h hc hbase hpath hhashed (hparent.trans hprior.symm) htree'

theorem wp_advanceLineage (htree : cfg.commitTreeSha = none)
    (hw : Midway cfg r₀ best prev c w) (r : OneCandidatePassResult F)
    (hhandoff : c.handoff = r.handoff)
    (hc : r.accepted = true → c.Promotable cfg best r.fitnessDict)
    (hnot : r.accepted = false → ∀ fitness, ¬ c.Promotable cfg best fitness) :
    wp (advanceLineage env cfg best r) (fun _ => Settled cfg r₀ best r)
      (PassRaised cfg r₀ best) w := by
  unfold advanceLineage
  cases haccepted : r.accepted with
  | false =>
    have hkeeps : Keeps (Midway cfg r₀ best prev c)
        (runGitProgram env (rejectBranch cfg.target best.isSome)) :=
      inert_midway.runGitProgram fun r => rejectBranch_sameRef (t := cfg.target) r
    refine (hkeeps w hw).mono (fun _ t ht => ⟨?_, .inl ⟨haccepted, ht.sameRef⟩⟩) fun _ t ht =>
      ⟨fun _ _ => ht.inStep (hnot haccepted), .inl ht.sameRef⟩
    rw [haccepted]
    exact ht.inStep (hnot haccepted)
  | true =>
    let message := commitMessage r.handoff r.derivedFrom
    let Moved (r' : Repository) : Prop := ∃ s commit, SameRef cfg.ratchetRefName w.vars s ∧
      AdvancedBy cfg.target r.handoff.path message s r' commit
    have hmeets : (acceptBranch cfg.target r.handoff.path message).run.Meets exec Eq
        (fun _ _ => True)
        (fun answer r' =>
          Moved r' ∨ answer.isOk = false ∧ SameRef cfg.ratchetRefName w.vars r') w.vars := by
      refine acceptBranch_meets evolves_of_eq (stable_sameRef _ w.vars) (.refl _ _)
        (fun _ _ _ => trivial) (fun _ _ h => .inr ⟨rfl, h⟩) fun s s' commit hs hadvance =>
          ⟨trivial, fun _ => .inl ⟨s, commit, hs, hadvance⟩⟩
    have hown : Raises (fun e => e.isInstance .candidateRunFailedError = false)
        (acceptBranch cfg.target r.handoff.path message).run :=
      acceptBranch_raises (fun _ => rfl) (fun _ => rfl) (fun _ => rfl) (fun _ => rfl) _ _ _
    have hadvanced : ∀ r', Moved r' → Advanced cfg r₀ r' := by
      rintro r' ⟨s, commit, hs, hadvance⟩
      exact ⟨s, r', r.handoff, r.derivedFrom, commit, hw.sameRef.trans hs, hadvance, .refl _ _⟩
    rw [if_pos rfl]
    refine ((wp_runGitProgram inert_midway.event hw hmeets).and
      (wp_runGitProgram_raises hown w)).mono ?_ ?_
    · rintro _ t ⟨⟨hmid, hmoved⟩, -⟩
      have hmoved := hmoved.resolve_right (by simp [Except.isOk, Except.toBool])
      refine ⟨?_, .inr ⟨haccepted, hadvanced _ hmoved⟩⟩
      obtain ⟨s, commit, hs, hadvance⟩ := hmoved
      intro hcalm
      have hlineage : Lineage cfg t.vars.hashed prev (s.refs cfg.ratchetRefName) best := by
        rw [hs.refs, hw.sameRef.refs]
        refine (hmid.lineage hcalm).mono fun f hf => ?_
        rw [hadvance.repository]
        exact hs.hashed f hf
      rw [show candidates t.events = c :: prev from hmid.candidates, haccepted, if_pos rfl,
        show t.vars.refs cfg.ratchetRefName = some commit by
          rw [hadvance.repository]
          exact Repository.setRef_refs ..]
      exact hlineage.advance htree (hc haccepted) (congrArg _ hhandoff) hadvance
    · rintro raised t ⟨⟨-, hmoved⟩, hlate⟩
      refine .late ?_ (hmoved.symm.imp (fun hs => hw.sameRef.trans hs.2) (hadvanced _))
      rcases hlate with hown | ⟨command, answer, hmem, hraised⟩
      · exact .inr hown
      · exact .inl ⟨_, hmem, rfl, hraised⟩

/-- What a pass makes of the ref and of the lineage, whatever the collaborators answer. -/
theorem wp_runOneCandidatePass (htree : cfg.commitTreeSha = none) (h : InStep cfg best w)
    (n : Nat) :
    wp (runOneCandidatePass env cfg best (best.map fun _ => cfg.higherIsBetter) n)
      (Settled cfg w.vars best) (PassRaised cfg w.vars best) w := by
  unfold runOneCandidatePass
  rw [wp_ite]
  split
  · exact .late (.inr rfl) (.inl (.refl _ _))
  rw [wp_bind]
  refine wp_ask_of (fun handoff => ?_) fun e => ⟨fun _ _ => h.error _ e, .inl (.refl _ _)⟩
  have hdispatched : Midway cfg w.vars best (candidates w.events) ⟨handoff, none, none, none⟩
      { w with events := w.events ++ [⟨.dispatchCandidate, .ok handoff⟩] } := by
    refine ⟨fun hcalm => h hcalm.of_append, ?_, .refl _ _⟩
    rw [candidates_append]
    cases candidates w.events <;> rfl
  rw [wp_bind]
  refine (wp_runCandidate rfl hdispatched).mono ?_ fun _ _ h => h
  rintro ⟨derivedFrom, runResult⟩ t ⟨hsuccess, ht⟩
  dsimp only at hsuccess ht ⊢
  rw [wp_bind]
  refine (wp_scoreCandidate rfl ht handoff runResult n).mono (fun fitness t ht => ?_) fun _ _ h => h
  rw [wp_bind]
  refine (wp_decideRatchet inert_midway ht fitness).mono ?_ fun _ _ ht => ht.raised_early rfl
  rintro decision t ⟨ht, himproved⟩
  rw [wp_bind]
  refine wp_ask_of (fun pass => ?_) fun e => (ht.event _ (observe_error _ _ e)).raised_early rfl
  have hpass := ht.event ⟨.statsBattery, .ok pass⟩ rfl
  rw [wp_bind]
  refine wp_ask_of (fun counts => ?_) fun e => .late (.inl (.last rfl nofun)) (.inl hpass.sameRef)
  have hcounts := hpass.event ⟨.seedTrialCounts handoff.contentSha256, .ok counts⟩ rfl
  rw [wp_bind]
  refine (wp_assessSeedTrialFloor hcounts counts cfg.campaignMode).mono
    (fun seedHardBlocked t ht => ?_) fun raised t ht => .late (.inr ht.2) (.inl ht.1.sameRef)
  rw [wp_bind]
  refine (wp_advanceLineage htree ht _ rfl ?_ ?_).mono (fun _ t ht => ?_) fun _ _ h => h
  · intro haccepted
    simp only [OneCandidatePassResult.accepted, isAccepted, Bool.and_eq_true,
      Bool.not_eq_true'] at haccepted
    exact ⟨⟨runResult, rfl, hsuccess⟩, rfl, ⟨pass, rfl, haccepted.1.2⟩, himproved.mp haccepted.2⟩
  · rintro hrejected fitness' ⟨-, hscored, ⟨pass', hpass', hstats⟩, himproved'⟩
    obtain rfl := some.inj hscored
    obtain rfl := some.inj hpass'
    simp [OneCandidatePassResult.accepted, isAccepted, hsuccess, hstats,
      himproved.mpr himproved'] at hrejected
  · rw [wp_bind]
    refine (wp_afterLineage inert_settled ht _).mono (fun _ t ht => ht) ?_
    rintro raised t ⟨ht, hlate⟩
    exact .late (.inl hlate) (ht.ref.imp And.right And.right)

/-! ### Through the loop -/

variable {l : LoopState F}

theorem wp_iteration (htree : cfg.commitTreeSha = none) (h : InStep cfg l.bestFitness w) :
    wp (iteration env cfg l) (fun next w => ∀ l', next = .next l' → InStep cfg l'.bestFitness w)
      (fun _ _ => True) w := by
  unfold iteration
  rw [wp_bind, wp_attempt]
  refine (wp_runOneCandidatePass htree h (l.candidateIndex + 1)).mono (fun r t ht => ?_)
    fun raised t ht => ?_
  · dsimp only
    unfold completePass
    rw [wp_bind]
    refine (wp_watchDiversity (fun _ => inert_inStep.ask rfl) (fun _ _ => inert_inStep.ask rfl)
      (fun _ => inert_inStep.ask rfl) ht.inStep r).mono ?_ fun _ _ h => h
    rintro _ t ⟨ht, leaps, flags, source, rfl⟩ _ ⟨⟩
    exact ht
  · dsimp only
    rw [wp_ite]
    split
    · rename_i hskip
      refine (wp_skipFailedCandidate (inert_inStep.ask rfl) (resolveDerivedFrom_keeps _)
        (fun best => inert_inStep.runGitProgram fun r => rejectBranch_sameRef (t := cfg.target) r)
        (ht.inStep hskip.1 hskip.2) raised.exc).mono ?_ fun _ _ h => h
      rintro next t ⟨ht, rfl⟩ l' hnext
      unfold afterFailure at hnext
      split at hnext
      · exact nomatch hnext
      · cases hnext
        exact ht
    · exact trivial

theorem budgetIsExhausted_keeps {I : LoopWorld F → Prop} {ref : String} (hI : Inert ref I) :
    Keeps I (budgetIsExhausted env cfg l) := by
  unfold budgetIsExhausted
  cases cfg.wallClockBudgetSeconds with
  | none => exact .pure
  | some budget => exact (hI.ask rfl).bind fun _ => .pure

theorem inStep_of_dispatchPoints (htree : cfg.commitTreeSha = none) {n : Nat}
    (h : InStep cfg l.bestFitness w) {l' : LoopState F} {w' : LoopWorld F}
    (hmem : (l', w') ∈ dispatchPoints env cfg n l w) : InStep cfg l'.bestFitness w' := by
  induction n generalizing l w with
  | zero => exact nomatch hmem
  | succ n ih =>
    unfold dispatchPoints at hmem
    have hbudget : wp (budgetIsExhausted env cfg l) (fun _ => InStep cfg l.bestFitness)
        (fun _ => InStep cfg l.bestFitness) w := budgetIsExhausted_keeps inert_inStep w h
    unfold wp at hbudget
    split at hmem
    · rename_i t hfalse
      rw [hfalse] at hbudget
      rcases List.mem_cons.mp hmem with heq | hmem
      · cases heq
        exact hbudget
      · have hiteration : wp (iteration env cfg l)
            (fun next w => ∀ l', next = .next l' → InStep cfg l'.bestFitness w)
            (fun _ _ => True) _ := wp_iteration htree hbudget
        unfold wp at hiteration
        split at hmem
        · rename_i l₁ t₁ hnext
          rw [hnext] at hiteration
          exact ih (hiteration l₁ rfl) hmem
        · exact nomatch hmem
    · exact nomatch hmem

theorem inStep_of_dispatches (htree : cfg.commitTreeSha = none) {repo : Repository}
    (hnone : repo.refs cfg.ratchetRefName = none) (hmem : (l, w) ∈ dispatches env cfg repo) :
    InStep cfg l.bestFitness w := by
  have hI : InStep cfg none (⟨[], repo⟩ : LoopWorld F) := fun _ => hnone.symm ▸ .start
  have hstart : wp (startLoop env cfg) (fun l w => InStep cfg l.bestFitness w)
      (fun _ _ => True) ⟨[], repo⟩ := by
    unfold startLoop
    rw [wp_ite]
    split
    · exact trivial
    rw [wp_ite]
    split
    · exact trivial
    refine (inert_inStep.ask rfl).wp_bind hI (fun _ t ht => ?_) fun _ _ _ => trivial
    exact (inert_inStep.ask rfl).wp_bind ht (fun _ t ht => ht) fun _ _ _ => trivial
  unfold dispatches at hmem
  unfold wp at hstart
  split at hmem
  · rename_i l₀ w₀ heq
    rw [heq] at hstart
    exact inStep_of_dispatchPoints htree hstart hmem
  · exact nomatch hmem

/-- **The ref and the best fitness are in step** at every dispatch of a calm run: both are those
of the last promoted candidate, and all promoted candidates are on the ref, in order.  And no
pass moves the ref but by its own advance. -/
theorem lineage_in_step (htree : cfg.commitTreeSha = none) {repo : Repository}
    (hnone : repo.refs cfg.ratchetRefName = none) (hmem : (l, w) ∈ dispatches env cfg repo) :
    (Calm cfg w.events → Lineage cfg w.vars.hashed (candidates w.events)
      (w.vars.refs cfg.ratchetRefName) l.bestFitness) ∧
    (∀ r w', dispatchPass env cfg l w = .ok r w' → r.accepted = false →
      w'.vars.refs cfg.ratchetRefName = w.vars.refs cfg.ratchetRefName) ∧
    ∀ raised w', dispatchPass env cfg l w = .error raised w' →
      w'.vars.refs cfg.ratchetRefName = w.vars.refs cfg.ratchetRefName ∨
        Advanced cfg w.vars w'.vars := by
  have h := inStep_of_dispatches htree hnone hmem
  have hpass : wp (dispatchPass env cfg l) (Settled cfg w.vars l.bestFitness)
      (PassRaised cfg w.vars l.bestFitness) w := wp_runOneCandidatePass htree h _
  refine ⟨h, fun r w' hok hrejected => ?_, fun raised w' herror => ?_⟩
  · rw [wp_iff_of_ok hok] at hpass
    rcases hpass.ref with ⟨-, hsame⟩ | ⟨haccepted, -⟩
    · exact hsame.refs
    · exact nomatch haccepted.symm.trans hrejected
  · rw [wp_iff_of_error herror] at hpass
    exact hpass.ref.imp SameRef.refs id

end

/-! ### A promoted candidate taken for a failed one -/

/-- Collaborators that answer every call, but for the timing of a candidate. -/
def collaborators (timing : Except Exc Unit) : LoopEnv ℕ := fun _ call =>
  match call with
  | .time => .ok 0
  | .dispatchCandidate => .ok ⟨"c.py", "c0ffee"⟩
  | .adapterRun _ _ => .ok ⟨true, "run", 0⟩
  | .guardedEvaluate _ => .ok 1
  | .statsBattery => .ok true
  | .seedTrialCounts _ => .ok ⟨3, 29⟩
  | .git _ => .ok ⟨none, false, "x = 1", "now", none⟩
  | .readSource _ => .ok "x = 1"
  | .isStructuralMutation _ _ => .ok true
  | .measureTwoPhaseTiming _ => timing
  | .startWatchdog | .stopWatchdog | .candidateStatic _ | .structureTripwire _
  | .candidateSmoke _ | .checkifiedExecution _ | .sidecarDrift _ _ | .verifyMetricsProvenance _
  | .writeMetricsProvenance _ | .buildSanctionedEnvelope _ | .admitEvidence _
  | .assertNoCompileTimeRegression | .emitProbeRecord _ | .leapPathRequired _ => .ok ()

/-- An exploration of two candidates over a bootstrap commit. -/
def exploration : Config ℕ where
  campaignMode := .exploration
  distinctRealParents := []
  outputPaths := ["out.json"]
  agentMode := "supervised"
  wallClockBudgetSeconds := none
  diversityWindowSize := 5
  ratchetRefName := "refs/xtrax/best"
  commitTreeSha := none
  candidateTargetPath := some "f.py"
  allowFreshStartDespiteExistingLineage := false
  bootstrapCommitSha := some (.root 0 ∅)
  maxCandidates := 2
  maxConsecutiveFailures := 3
  probeRecordDir := false
  higherIsBetter := ∅
  computeRatchetDecision := fun _ _ _ => .ok automaticAccept

/-- A repository without the ratchet's ref. -/
def bareRepository : Repository := ⟨fun _ => none, some "refs/heads/main", []⟩

/-- The timing of the candidate, which runs its code, raises what a failed run raises. -/
def failedTiming : Except Exc Unit := .error ⟨[.candidateRunFailedError], "", "c.py", "", 1⟩

/-- The call raised nothing. -/
def quiet : Event Call (Answer ℕ) Exc → Bool
  | ⟨.git _, answer⟩ => (circumstances answer).before.isNone && (circumstances answer).after.isNone
  | ⟨_, answer⟩ => answer.isOk

theorem calm_of_quiet {cfg : Config ℕ} {events : List (Event Call (Answer ℕ) Exc)}
    (h : events.all quiet = true) : Calm cfg events := by
  rintro - e ⟨⟨call, answer⟩, hev, -, hraises⟩
  have hquiet := List.all_eq_true.mp h _ hev
  cases call with
  | git c =>
    obtain ⟨hbefore, hafter⟩ := Bool.and_eq_true_iff.mp hquiet
    rcases hraises with hraises | hraises
    · rw [hraises] at hbefore
      cases hbefore
    · rw [hraises] at hafter
      cases hafter
  | _ =>
    cases answer with
    | ok a => exact hraises.elim
    | error e => cases hquiet

theorem lineage_in_step_second :
    ∃ l w, (l, w) ∈ dispatches (collaborators (.ok ())) exploration bareRepository ∧
      l.bestFitness = some 1 ∧ Lineage exploration w.vars.hashed (candidates w.events)
        (w.vars.refs exploration.ratchetRefName) l.bestFitness := by
  have hsecond : (dispatches (collaborators (.ok ())) exploration bareRepository)[1]?.map
      (fun p => (p.1.bestFitness, p.2.events.all quiet)) = some (some 1, true) := by decide +kernel
  obtain ⟨⟨l, w⟩, hlw, hvalues⟩ := Option.map_eq_some_iff.mp hsecond
  obtain ⟨hbest, hquiet⟩ := Prod.mk.inj hvalues
  have hmem := List.mem_of_getElem? hlw
  exact ⟨l, w, hmem, hbest, (lineage_in_step rfl rfl hmem).1 (calm_of_quiet hquiet)⟩

/-- The ref is one commit ahead of the best fitness at the second dispatch. -/
theorem promoted_as_failed :
    ∃ l w, (l, w) ∈ dispatches (collaborators failedTiming) exploration bareRepository ∧
      bareRepository.refs exploration.ratchetRefName = none ∧
      exploration.commitTreeSha = none ∧
      ¬ Lineage exploration w.vars.hashed (candidates w.events)
        (w.vars.refs exploration.ratchetRefName) l.bestFitness := by
  have hsecond : (dispatches (collaborators failedTiming) exploration bareRepository)[1]?.map
      (fun p => ((p.2.vars.refs exploration.ratchetRefName).isSome, p.1.bestFitness.isSome)) =
        some (true, false) := by decide +kernel
  obtain ⟨⟨l, w⟩, hlw, hahead⟩ := Option.map_eq_some_iff.mp hsecond
  refine ⟨l, w, List.mem_of_getElem? hlw, rfl, rfl, fun hlineage => ?_⟩
  rw [Prod.mk.injEq, hlineage.isSome_iff] at hahead
  exact Bool.noConfusion (hahead.1.symm.trans hahead.2)

end Xtrax.Controller
