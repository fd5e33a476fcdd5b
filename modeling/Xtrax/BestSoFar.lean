import Mathlib.Tactic.Common
import Xtrax.Git

/-!
# The best-so-far ref

An accepted candidate becomes a commit on the ratchet's ref: its parent is what the ref named,
its tree is the base commit's with the candidate at its target path, and `update-ref` moves the
ref if it still names the parent.  The parent and the base come from two reads of the ref.

The accept branch makes no other change than such an advance (`AcceptedOn`), as long as the ref
only goes on to descendants between its commands (`accept_meets`): when the two reads differ, the
ref has left what was read first for good, and the comparison fails.
-/

namespace Xtrax

/-! ### Exceptions -/

/-- The exception classes the loop's handlers tell apart, and the ones it raises. -/
inductive PyClass where
  | valueError
  | timeoutError
  | importError
  | candidateHandoffFailure
  | candidateRunFailedError
  | watchdogAlreadyStoppedError
  | commitCreationError
  | refUpdateConflictError
  | ratchetCrashAtomicityError
  | priorBestSoFarLineageConflictError
  | multiParentLineageUnsupportedError
  | ratchetInputError
  | seedGateInputError
  | assertionError
  | other (name : String)
  deriving DecidableEq

/-- An exception: its classes, its text, and the attributes of a `CandidateRunFailedError`. -/
structure Exc where
  classes : List PyClass
  text : String
  handoffPath : String
  handoffSha : String
  exitCode : Int
  deriving DecidableEq

def Exc.isInstance (e : Exc) (c : PyClass) : Bool := e.classes.contains c

/-- An exception of the classes `classes`. -/
def Exc.of (classes : List PyClass) (text : String) : Exc := ⟨classes, text, "", "", 0⟩

def Exc.valueError (text : String) : Exc := .of [.valueError] text

namespace BestSoFar

open Git Interleaving

/-! ### Reading, committing, advancing -/

def runGit (c : Command) : GitProgram Exc c.Output := do
  match ← gitRun c with
  | some out => return out
  | none => throw (.valueError "git failed")

def createPendingCommit (tree : Tree) (parent : Commit) (message : String) :
    GitProgram Exc Commit := do
  match ← gitRun (.commitTree tree parent message) with
  | some commit => return commit
  | none => throw (.of [.commitCreationError, .ratchetCrashAtomicityError] "git commit-tree failed")

def advanceBestSoFar (ref : String) (new : Commit) (expectedOld : Option Commit) :
    GitProgram Exc Unit := do
  match ← gitRun (.updateRef ref new expectedOld) with
  | some _ => return ()
  | none =>
    throw (.of [.refUpdateConflictError, .ratchetCrashAtomicityError]
      "compare-and-swap check did not hold")

def readBestSoFar (ref : String) : GitProgram Exc (Option Commit) :=
  gitRun (.revParseVerify ref)

def resetWorktreeToBestSoFar (ref : String) : GitProgram Exc Commit := do
  match ← readBestSoFar ref with
  | none => throw (.of [.ratchetCrashAtomicityError] "no best-so-far ref exists")
  | some best =>
    match ← gitRun (.resetHard best) with
    | some _ => return best
    | none => throw (.of [.ratchetCrashAtomicityError] "git reset --hard failed")

def computeCandidateTreeSha (handoffPath targetPath : String) (base : Option Commit) :
    GitProgram Exc Tree := do
  match base with
  | none => throw (.valueError "base_sha is None")
  | some base =>
    let baseTree ← runGit (.revParseTree base)
    let index ← runGit (.readTree baseTree)
    let blob ← runGit (.hashObject handoffPath)
    let index ← runGit (.updateIndex index "100644" blob targetPath)
    runGit (.writeTree index)

/-! ### The branches of a pass -/

/-- What the branches of a pass get from their caller. -/
structure Target where
  ref : String
  /-- `commit_tree_sha`: a tree the caller supplies, instead of a computed one. -/
  commitTreeSha : Option Tree
  targetPath : Option String
  commitParentSha : Option Commit
  bootstrapBaseTreeSha : Option Commit

/-- `resolved_tree_sha`: the tree the caller supplied, or the computed one, over a second read of
the ref. -/
def resolvedTreeSha (t : Target) (handoffPath : String) : GitProgram Exc Tree :=
  match t.commitTreeSha with
  | some tree => pure tree
  | none => do
    let base ← readBestSoFar t.ref
    match t.targetPath with
    | none => throw (.of [.assertionError] "candidate_target_path is None")
    | some path => computeCandidateTreeSha handoffPath path (base.or t.bootstrapBaseTreeSha)

/-- The accept branch of `run_one_candidate_pass`: a pending commit, then the ref. -/
def acceptBranch (t : Target) (handoffPath message : String) : GitProgram Exc Unit := do
  let prior ← readBestSoFar t.ref
  match prior.or t.commitParentSha with
  | none => throw (.valueError "commit_parent_sha must be supplied")
  | some parent =>
    let tree ← resolvedTreeSha t handoffPath
    let pending ← createPendingCommit tree parent message
    advanceBestSoFar t.ref pending prior

/-- The reject branch of `run_one_candidate_pass`, and `reset_after_failed_candidate`, which do
nothing while there is neither a best fitness nor a ref. -/
def rejectBranch (t : Target) (hasBestFitness : Bool) : GitProgram Exc Unit := do
  if hasBestFitness then
    let _ ← resetWorktreeToBestSoFar t.ref
  else
    match ← readBestSoFar t.ref with
    | none => return ()
    | some _ => let _ ← resetWorktreeToBestSoFar t.ref

/-! ### What the branches raise -/

section

variable {S : Exc → Prop}

theorem runGit_raises (hS : ∀ text, S (.valueError text)) (c : Command) : Raises S (runGit c).run :=
  raises_bind raises_gitRun fun o => match o with
    | some _ => trivial
    | none => hS _

/-- What the accept branch raises by itself has none of the classes the loop tells apart, but
`ValueError`. -/
theorem acceptBranch_raises (hvalue : ∀ text, S (.valueError text))
    (hassert : ∀ text, S (.of [.assertionError] text))
    (hcommit : ∀ text, S (.of [.commitCreationError, .ratchetCrashAtomicityError] text))
    (hconflict : ∀ text, S (.of [.refUpdateConflictError, .ratchetCrashAtomicityError] text))
    (t : Target) (handoffPath message : String) :
    Raises S (acceptBranch t handoffPath message).run := by
  have htree : Raises S (resolvedTreeSha t handoffPath).run := by
    unfold resolvedTreeSha
    cases t.commitTreeSha with
    | some tree => exact trivial
    | none =>
      refine raises_bind raises_gitRun fun base => ?_
      cases t.targetPath with
      | none => exact hassert _
      | some path =>
        dsimp only
        unfold computeCandidateTreeSha
        cases base.or t.bootstrapBaseTreeSha with
        | none => exact hvalue _
        | some base =>
          exact raises_bind (runGit_raises hvalue _) fun _ =>
            raises_bind (runGit_raises hvalue _) fun _ =>
            raises_bind (runGit_raises hvalue _) fun _ =>
            raises_bind (runGit_raises hvalue _) fun _ => runGit_raises hvalue _
  unfold acceptBranch
  refine raises_bind raises_gitRun fun prior => ?_
  cases prior.or t.commitParentSha with
  | none => exact hvalue _
  | some parent =>
    refine raises_bind htree fun tree => raises_bind ?_ fun pending => ?_
    · exact raises_bind raises_gitRun fun o => match o with
        | some _ => trivial
        | none => hcommit _
    · exact raises_bind raises_gitRun fun o => match o with
        | some _ => trivial
        | none => hconflict _

theorem rejectBranch_raises (hreset : ∀ text, S (.of [.ratchetCrashAtomicityError] text))
    (t : Target) (hasBestFitness : Bool) : Raises S (rejectBranch t hasBestFitness).run := by
  have hresets : Raises S (resetWorktreeToBestSoFar t.ref >>= fun _ => pure ()).run := by
    refine raises_bind ?_ fun _ => trivial
    unfold resetWorktreeToBestSoFar
    refine raises_bind raises_gitRun fun best => ?_
    cases best with
    | none => exact hreset _
    | some best =>
      exact raises_bind raises_gitRun fun o => match o with
        | some _ => trivial
        | none => hreset _
  unfold rejectBranch
  cases hasBestFitness with
  | true => exact hresets
  | false =>
    refine raises_bind raises_gitRun fun best => ?_
    cases best with
    | none => exact trivial
    | some best => exact hresets

end

/-! ### What the branches do to the repository -/

/-- What may become of the repository while the ratchet's ref goes on to descendants only. -/
structure Evolves (ref : String) (r r' : Repository) : Prop where
  descends : Descends (r.refs ref) (r'.refs ref)
  head : r'.head = r.head
  hashed : ∀ f ∈ r.hashed, f ∈ r'.hashed

theorem Evolves.of_quiet {ref : String} {r r' : Repository} (h : Quiet r r') : Evolves ref r r' :=
  ⟨h.refs ▸ .refl _, h.head, h.hashed⟩

theorem Evolves.trans {ref : String} {r₁ r₂ r₃ : Repository} (h : Evolves ref r₁ r₂)
    (h' : Evolves ref r₂ r₃) : Evolves ref r₁ r₃ :=
  ⟨h.descends.trans h'.descends, h'.head.trans h.head, fun f hf => h'.hashed f (h.hashed f hf)⟩

/-- The tree of a candidate: the base commit's, with the contents read from the handed-off file
at the target path. -/
def CandidateTree (handoffPath path : String) (base : Option Commit) (r : Repository)
    (tree : Tree) : Prop :=
  ∃ commit contents, base = some commit ∧ (handoffPath, contents) ∈ r.hashed ∧
    tree = commit.tree.insert path ⟨"100644", contents⟩

theorem CandidateTree.of_hashed {handoffPath path : String} {base : Option Commit}
    {r r' : Repository} {tree : Tree} (h : CandidateTree handoffPath path base r tree)
    (hr : ∀ f ∈ r.hashed, f ∈ r'.hashed) : CandidateTree handoffPath path base r' tree := by
  obtain ⟨commit, contents, hbase, hmem, htree⟩ := h
  exact ⟨commit, contents, hbase, hr _ hmem, htree⟩

/-- What the tree of an accepted candidate is: the supplied one, else the candidate's over what
the ref names, else over the supplied base. -/
def Target.Gives (t : Target) (handoffPath : String) (r : Repository) (tree : Tree) : Prop :=
  match t.commitTreeSha with
  | some literal => tree = literal
  | none => ∃ path, t.targetPath = some path ∧
      CandidateTree handoffPath path ((r.refs t.ref).or t.bootstrapBaseTreeSha) r tree

/-- The ref was moved to a commit whose parent is what the ref named, else the supplied parent,
with the tree of an accepted candidate. -/
structure AdvancedBy (t : Target) (handoffPath message : String) (r r' : Repository)
    (commit : Commit) : Prop where
  repository : r' = r.setRef t.ref commit
  parent : ∃ parent, commit.parent = some parent ∧ (r.refs t.ref).or t.commitParentSha = some parent
  message : commit.message = some message
  tree : t.Gives handoffPath r commit.tree

section

variable {rely G : Repository → Repository → Prop} {s : Repository} {P : Repository → Prop}

theorem runGit_meets {c : Command} {Q : Except Exc c.Output → Repository → Prop}
    (hP : Stable rely P) (hs : P s) (hG : ∀ t t', Quiet t t' → G t t') (hc : c.quiet = true)
    (herror : ∀ t e, P t → Q (.error e) t)
    (heffect : ∀ t (n : Circumstances Exc) out, P t → P (effect t n c).2 →
      (effect t n c).1 = some out → Q (.ok out) (effect t n c).2) :
    (runGit c).run.Meets exec rely G Q s := by
  unfold runGit
  rw [meets_bind]
  refine meets_quiet hP hs hc hG (fun t e ht => herror t e ht)
    (fun t ht _ => herror t _ ht) fun t n ht ht' => ?_
  cases hout : (effect t n c).1 with
  | none => exact herror _ _ ht'
  | some out => exact heffect t n out ht ht' hout

theorem readBestSoFar_meets {ref : String} {Q : Except Exc (Option Commit) → Repository → Prop}
    (hP : Stable rely P) (hs : P s) (hG : ∀ t t', Quiet t t' → G t t')
    (herror : ∀ t e, P t → Q (.error e) t) (hread : ∀ t, P t → Q (.ok (t.refs ref)) t) :
    (readBestSoFar ref).run.Meets exec rely G Q s :=
  meets_quiet (c := .revParseVerify ref) hP hs rfl hG herror (fun _ _ h => nomatch h)
    fun t _ ht _ => hread t ht

theorem computeCandidateTreeSha_meets {handoffPath path : String} {base : Option Commit}
    {Q : Except Exc Tree → Repository → Prop} (hrely : ∀ s t, rely s t → ∀ f ∈ s.hashed, f ∈ t.hashed)
    (hP : Stable rely P) (hs : P s) (hG : ∀ t t', Quiet t t' → G t t')
    (herror : ∀ t e, P t → Q (.error e) t)
    (htree : ∀ t tree, P t → CandidateTree handoffPath path base t tree → Q (.ok tree) t) :
    (computeCandidateTreeSha handoffPath path base).run.Meets exec rely G Q s := by
  unfold computeCandidateTreeSha
  cases base with
  | none => exact herror s _ hs
  | some base =>
    -- one command after the other, each with what the one before printed
    refine meets_bind.mpr (runGit_meets hP hs hG rfl herror fun _ _ baseTree _ hs₁ h₁ => ?_)
    obtain rfl := Option.some.inj h₁
    refine meets_bind.mpr (runGit_meets hP hs₁ hG rfl herror fun _ _ index _ hs₂ h₂ => ?_)
    obtain rfl := Option.some.inj h₂
    refine meets_bind.mpr (runGit_meets hP hs₂ hG rfl herror fun _ n blob _ hs₃ h₃ => ?_)
    obtain rfl := Option.some.inj h₃
    have hhashed : Stable rely fun t => (handoffPath, n.contents) ∈ t.hashed :=
      ⟨fun s t hst h => hrely s t hst _ h, fun s t hst h => hst.hashed _ h⟩
    have hP' := hP.and hhashed
    refine meets_bind.mpr (runGit_meets hP' ⟨hs₃, List.mem_cons_self⟩ hG rfl
      (fun t e ht => herror t e ht.1) fun _ _ index _ hs₄ h₄ => ?_)
    obtain rfl := Option.some.inj h₄
    refine runGit_meets hP' hs₄ hG rfl (fun t e ht => herror t e ht.1) fun _ _ tree _ hs₅ h₅ => ?_
    obtain rfl := Option.some.inj h₅
    exact htree _ _ hs₅.1 ⟨base, n.contents, rfl, hs₅.2, rfl⟩

theorem createPendingCommit_meets {tree : Tree} {parent : Commit} {message : String}
    {Q : Except Exc Commit → Repository → Prop} (hP : Stable rely P) (hs : P s)
    (hG : ∀ t t', Quiet t t' → G t t') (herror : ∀ t e, P t → Q (.error e) t)
    (hcommit : ∀ t stamp, P t → Q (.ok (.child tree parent message stamp)) t) :
    (createPendingCommit tree parent message).run.Meets exec rely G Q s := by
  unfold createPendingCommit
  refine meets_bind.mpr (meets_quiet hP hs rfl hG herror (fun t ht _ => herror t _ ht) ?_)
  exact fun t n ht _ => hcommit t n.stamp ht

theorem stable_evolves {ref : String} (hrely : ∀ s t, rely s t → Evolves ref s t)
    (r : Repository) : Stable rely fun s => Evolves ref r s :=
  ⟨fun s t hst h => h.trans (hrely s t hst), fun _ _ hst h => h.trans (.of_quiet hst)⟩

/-- The tree of an accepted candidate, provided the ref comes to name what was read at first. -/
theorem resolvedTreeSha_meets {t : Target} {handoffPath : String}
    {Q : Except Exc Tree → Repository → Prop} (hrely : ∀ s s', rely s s' → Evolves t.ref s s')
    (hP : Stable rely P) {first : Repository} (hs : P s ∧ Evolves t.ref first s)
    (hG : ∀ s s', Quiet s s' → G s s') (herror : ∀ s e, P s → Q (.error e) s)
    (htree : ∀ s tree, P s ∧ Evolves t.ref first s →
      (∀ s', Evolves t.ref s s' → s'.refs t.ref = first.refs t.ref → t.Gives handoffPath s' tree) →
      Q (.ok tree) s) :
    (resolvedTreeSha t handoffPath).run.Meets exec rely G Q s := by
  unfold resolvedTreeSha
  have hP₁ := hP.and (stable_evolves hrely first)
  cases hliteral : t.commitTreeSha with
  | some tree =>
    refine htree s tree hs fun _ _ _ => ?_
    rw [Target.Gives, hliteral]
  | none =>
    refine meets_bind.mpr (readBestSoFar_meets hP₁ hs hG (fun s e h => herror s e h.1)
      fun s₂ h₂ => ?_)
    dsimp only
    cases hpath : t.targetPath with
    | none => exact herror _ _ h₂.1
    | some path =>
      refine computeCandidateTreeSha_meets (fun s s' h => (hrely s s' h).hashed)
        (hP₁.and (stable_evolves hrely s₂)) ⟨h₂, .of_quiet (.refl _)⟩ hG
        (fun s e h => herror s e h.1.1) fun s₃ tree h₃ hcandidate => ?_
      refine htree s₃ tree h₃.1 fun s₄ h₃₄ hback => ?_
      rw [Target.Gives, hliteral]
      refine ⟨path, hpath, ?_⟩
      -- the ref went from the first value to the second and is back at the first
      have hsame : s₂.refs t.ref = s₄.refs t.ref :=
        (h₃.2.trans h₃₄).descends.antisymm (hback ▸ h₂.2.descends)
      exact hsame ▸ hcandidate.of_hashed h₃₄.hashed

/-- **The accept branch advances the ref once, or not at all**, whatever the others do that lets
the ref go on to descendants. -/
theorem acceptBranch_meets {t : Target} {handoffPath message : String}
    {Q : Except Exc Unit → Repository → Prop} (hrely : ∀ s s', rely s s' → Evolves t.ref s s')
    (hP : Stable rely P) (hs : P s) (hG : ∀ s s', Quiet s s' → G s s')
    (herror : ∀ s e, P s → Q (.error e) s)
    (hadvance : ∀ s s' commit, P s → AdvancedBy t handoffPath message s s' commit →
      G s s' ∧ ∀ r, Q r s') :
    (acceptBranch t handoffPath message).run.Meets exec rely G Q s := by
  unfold acceptBranch
  refine meets_bind.mpr (readBestSoFar_meets hP hs hG herror fun s₁ hs₁ => ?_)
  dsimp only
  cases hparent : (s₁.refs t.ref).or t.commitParentSha with
  | none => exact herror _ _ hs₁
  | some parent =>
    refine meets_bind.mpr (resolvedTreeSha_meets hrely hP ⟨hs₁, .of_quiet (.refl _)⟩ hG herror
      fun s₂ tree hs₂ htree => ?_)
    have hP₂ := (hP.and (stable_evolves hrely s₁)).and (stable_evolves hrely s₂)
    refine meets_bind.mpr (createPendingCommit_meets hP₂ ⟨hs₂, .of_quiet (.refl _)⟩ hG
      (fun s e h => herror s e h.1.1) fun s₃ stamp h₃ => ?_)
    refine meets_bind.mpr (meets_updateRef hP₂ h₃ hG (fun s e h => herror s e h.1.1)
      (fun s h => herror s _ h.1.1) fun s₄ h₄ hexpected => ?_)
    have hadvanced : AdvancedBy t handoffPath message s₄
        (s₄.setRef t.ref (.child tree parent message stamp)) (.child tree parent message stamp) :=
      ⟨rfl, ⟨parent, rfl, hexpected ▸ hparent⟩, rfl, htree s₄ h₄.2 hexpected⟩
    obtain ⟨hmove, hQ⟩ := hadvance s₄ _ _ h₄.1.1 hadvanced
    exact ⟨hmove, fun e => hQ _, hQ _⟩

theorem resetWorktreeToBestSoFar_meets {ref : String} {Q : Except Exc Commit → Repository → Prop}
    (hP : Stable rely P) (hs : P s)
    (hG : ∀ s s', Quiet s s' → G s s') (hQ : ∀ s r, P s → Q r s)
    (hreset : ∀ s₀ s branch best, P s₀ → P s → s₀.refs ref = some best → s.head = some branch →
      G s (s.setRef branch best) ∧ ∀ r, Q r (s.setRef branch best)) :
    (resetWorktreeToBestSoFar ref).run.Meets exec rely G Q s := by
  unfold resetWorktreeToBestSoFar
  refine meets_bind.mpr (readBestSoFar_meets hP hs hG (fun s e h => hQ s _ h) fun s₁ hs₁ => ?_)
  dsimp only
  cases hbest : s₁.refs ref with
  | none => exact hQ _ _ hs₁
  | some best =>
    refine meets_bind.mpr (meets_gitRun.mpr fun s₂ n h₁₂ => ?_)
    have hs₂ : P s₂ := hP.rely _ _ h₁₂ hs₁
    have hsame : (exec s₂ n (.resetHard best)).2 = s₂ ∨
        ∃ branch, s₂.head = some branch ∧ (exec s₂ n (.resetHard best)).2 = s₂.setRef branch best := by
      rcases exec_cases (r := s₂) (n := n) (c := .resetHard best) with ⟨hr, -⟩ | ⟨hr, -⟩
      · exact .inl hr
      · rw [hr, effect]
        cases s₂.head with
        | none => exact .inl rfl
        | some branch => exact .inr ⟨branch, rfl, rfl⟩
    rcases hsame with hr | ⟨branch, hhead, hr⟩
    · rw [hr]
      refine ⟨hG _ _ (.refl _), ?_⟩
      rcases (exec s₂ n (.resetHard best)).1 with e | _ | _
      · exact hQ _ _ hs₂
      · exact hQ _ _ hs₂
      · exact hQ _ _ hs₂
    · rw [hr]
      obtain ⟨hmove, hQ'⟩ := hreset s₁ s₂ branch best hs₁ hs₂ hbest hhead
      refine ⟨hmove, ?_⟩
      rcases (exec s₂ n (.resetHard best)).1 with e | _ | _
      · exact hQ' _
      · exact hQ' _
      · exact hQ' _

theorem rejectBranch_meets {t : Target} {hasBestFitness : Bool}
    {Q : Except Exc Unit → Repository → Prop} (hP : Stable rely P) (hs : P s)
    (hG : ∀ s s', Quiet s s' → G s s') (hQ : ∀ s r, P s → Q r s)
    (hreset : ∀ s₀ s branch best, P s₀ → P s → s₀.refs t.ref = some best → s.head = some branch →
      G s (s.setRef branch best) ∧ ∀ r, Q r (s.setRef branch best)) :
    (rejectBranch t hasBestFitness).run.Meets exec rely G Q s := by
  have hresets : ∀ s, P s →
      (resetWorktreeToBestSoFar t.ref >>= fun _ => pure ()).run.Meets exec rely G Q s := by
    intro s hs
    refine meets_bind.mpr (resetWorktreeToBestSoFar_meets hP hs hG ?_ ?_)
    · rintro s (e | best) hs
      · exact hQ _ _ hs
      · exact hQ _ _ hs
    · intro s₀ s branch best hs₀ hs hbest hhead
      obtain ⟨hmove, hQ'⟩ := hreset s₀ s branch best hs₀ hs hbest hhead
      refine ⟨hmove, ?_⟩
      rintro (e | best)
      · exact hQ' _
      · exact hQ' _
  unfold rejectBranch
  cases hasBestFitness with
  | true => exact hresets s hs
  | false =>
    refine meets_bind.mpr (readBestSoFar_meets hP hs hG (fun s e h => hQ s _ h) fun s₁ hs₁ => ?_)
    dsimp only
    cases s₁.refs t.ref with
    | none => exact hQ _ _ hs₁
    | some best => exact hresets s₁ hs₁

end

end BestSoFar

end Xtrax
