import Xtrax.BestSoFar

/-!
# Many writers of one best-so-far ref

Any number of processes run accept and reject branches on one repository and one ref, a git
command at a time, and stop anywhere.

While the ref is not the branch HEAD is attached to, only accept branches move it, and each from
what it names at that moment (`writers_advance`): so the ref goes on to descendants for ever and
nothing that was accepted is lost.  When HEAD is attached to it, a reset moves it back to what it
named when the reset was decided (`rewinds`).
-/

namespace Xtrax.BestSoFar

open Git Interleaving

/-- A branch of a pass, with what its caller supplied. -/
inductive Writer where
  | accept (t : Target) (handoffPath message : String)
  | reject (t : Target) (hasBestFitness : Bool)

/-- The same on one ref, with computed trees. -/
def Target.onRef (t : Target) (ref : String) : Target :=
  { t with ref := ref, commitTreeSha := none }

def Writer.program (ref : String) : Writer → GitProgram Exc Unit
  | accept t handoffPath message => acceptBranch (t.onRef ref) handoffPath message
  | reject t hasBestFitness => rejectBranch (t.onRef ref) hasBestFitness

/-- The state of the processes and of the repository. -/
abbrev Writers (ι : Type) :=
  Shared Command (Command.Completed Exc) ι Writer (Except Exc Unit) Repository

/-- Processes `ι` on the ref of a repository, from any repository that `init` allows. -/
def writers (ι : Type) [DecidableEq ι] (ref : String) (init : Repository → Prop) :
    Machine (Writers ι) (Move ι Writer (Circumstances Exc)) :=
  system exec (fun w : Writer => (w.program ref).run) init

/-- What the ref names. -/
def Writers.best {ι : Type} (s : Writers ι) (ref : String) : Option Commit := s.store.refs ref

/-- What a writer may do to a repository in which HEAD is not attached to the ref. -/
def Writer.Allowed (ref : String) (w : Writer) (r r' : Repository) : Prop :=
  Evolves ref r r' ∧ (r'.refs ref = r.refs ref ∨
    ∃ t handoffPath message commit, w = .accept t handoffPath message ∧
      AdvancedBy (t.onRef ref) handoffPath message r r' commit)

theorem AdvancedBy.evolves {t : Target} {handoffPath message : String} {r r' : Repository}
    {commit : Commit} (h : AdvancedBy t handoffPath message r r' commit) :
    Evolves t.ref r r' := by
  obtain ⟨parent, hparent, hprior⟩ := h.parent
  rw [h.repository]
  refine ⟨?_, rfl, fun _ hf => hf⟩
  rw [Repository.setRef_refs]
  cases hold : r.refs t.ref with
  | none => exact trivial
  | some c =>
    rw [hold] at hprior
    obtain rfl := Option.some.inj hprior
    cases commit with
    | root id tree => exact nomatch hparent
    | child tree parent message stamp =>
      obtain rfl := Option.some.inj hparent
      exact Commit.le_child

/-! ### Steps -/

theorem Evolves.of_setRef {ref branch : String} {r : Repository} {commit : Commit}
    (h : branch ≠ ref) : Evolves ref r (r.setRef branch commit) := by
  refine ⟨?_, rfl, fun _ hf => hf⟩
  rw [show (r.setRef branch commit).refs ref = r.refs ref from Function.update_of_ne h.symm ..]
  exact .refl _

theorem writer_safe {ref : String} (w : Writer) {r : Repository} (hr : r.head ≠ some ref) :
    (w.program ref).run.Safe exec (Evolves ref) (w.Allowed ref) r := by
  have hhead : Stable (Evolves ref) fun s => s.head ≠ some ref :=
    ⟨fun _ _ h hs => h.head ▸ hs, fun _ _ h hs => h.head ▸ hs⟩
  have hquiet : ∀ s s', Quiet s s' → w.Allowed ref s s' :=
    fun s s' h => ⟨.of_quiet h, .inl (congrFun h.refs ref)⟩
  cases w with
  | accept t handoffPath message =>
    refine acceptBranch_meets (fun _ _ h => h) hhead hr hquiet (fun _ _ _ => trivial) ?_
    exact fun s s' commit _ h =>
      ⟨⟨h.evolves, .inr ⟨t, handoffPath, message, commit, rfl, h⟩⟩, fun _ => trivial⟩
  | reject t hasBestFitness =>
    refine rejectBranch_meets hhead hr hquiet (fun _ _ _ => trivial) ?_
    intro _ s branch best _ hs _ hbranch
    have hne : branch ≠ ref := fun h => hs (h ▸ hbranch)
    exact ⟨⟨.of_setRef hne, .inl (Function.update_of_ne hne.symm ..)⟩, fun _ => trivial⟩

section

variable {ι : Type} [DecidableEq ι] {ref : String} {s t : Writers ι}

theorem writers_step {m : Move ι Writer (Circumstances Exc)}
    (h : (writers ι ref fun r => r.head ≠ some ref).Reachable s)
    (hst : (writers ι ref fun r => r.head ≠ some ref).step s m = some t) :
    Evolves ref s.store t.store ∧ (t.best ref = s.best ref ∨
      ∃ i n w p, m = .command i n ∧ s.running i = some (w, p) ∧
        ∃ target handoffPath message commit, w = .accept target handoffPath message ∧
          AdvancedBy (target.onRef ref) handoffPath message s.store t.store commit) := by
  have hrefl : ∀ r, Evolves ref r r := fun r => .of_quiet (.refl r)
  have hhead : ∀ r r' : Repository, Evolves ref r r' → r.head ≠ some ref → r'.head ≠ some ref :=
    fun _ _ h hr => h.head ▸ hr
  have hsafe : ∀ (w : Writer) (r : Repository), r.head ≠ some ref →
      (w.program ref).run.Safe exec (Evolves ref) (w.Allowed ref) r := fun w _ hr => writer_safe w hr
  have hG : ∀ (w : Writer) r r', w.Allowed ref r r' → Evolves ref r r' := fun _ _ _ h => h.1
  rcases system_step hrefl (fun _ _ _ => Evolves.trans) hG (fun _ h => h) hhead hsafe h hst with
    hsame | ⟨i, n, w, p, hm, hp, hevolves, hbest⟩
  · rw [Writers.best, Writers.best, hsame]
    exact ⟨hrefl _, .inl rfl⟩
  · exact ⟨hevolves, hbest.imp (fun h => h) fun hadvance => ⟨i, n, w, p, hm, hp, hadvance⟩⟩

theorem writers_descends {ms : List (Move ι Writer (Circumstances Exc))}
    (h : (writers ι ref fun r => r.head ≠ some ref).Reachable s)
    (hrun : (writers ι ref fun r => r.head ≠ some ref).run s ms = some t) :
    Descends (s.best ref) (t.best ref) := by
  induction ms generalizing s with
  | nil =>
    obtain rfl := Option.some.inj hrun
    exact .refl _
  | cons m ms ih =>
    rw [Machine.run_cons] at hrun
    obtain ⟨u, hu, hrun⟩ := Option.bind_eq_some_iff.mp hrun
    exact (writers_step h hu).1.descends.trans (ih (.next h trivial hu) hrun)

/-! ### Advances -/

/-- The ref now names a commit whose parent is what it named, else the supplied bootstrap, and
whose tree is what that parent's is, or the supplied base when there was no ref, with one path
replaced. -/
def Target.Accepts (target : Target) (ref handoffPath : String) (r r' : Repository) : Prop :=
  ∃ commit parent base path contents, r'.refs ref = some commit ∧
    commit.parent = some parent ∧ (r.refs ref).or target.commitParentSha = some parent ∧
    (r.refs ref).or target.bootstrapBaseTreeSha = some base ∧
    (target.bootstrapBaseTreeSha = target.commitParentSha → base = parent) ∧
    target.targetPath = some path ∧ (handoffPath, contents) ∈ r.hashed ∧
    commit.tree = base.tree.insert path ⟨"100644", contents⟩

theorem AdvancedBy.accepts {target : Target} {handoffPath message : String} {r r' : Repository}
    {commit : Commit} (h : AdvancedBy (target.onRef ref) handoffPath message r r' commit) :
    target.Accepts ref handoffPath r r' := by
  obtain ⟨parent, hparent, hprior⟩ := h.parent
  obtain ⟨path, hpath, base, contents, hbase, hhashed, htree⟩ := h.tree
  refine ⟨commit, parent, base, path, contents, ?_, hparent, hprior, hbase, ?_, hpath, hhashed,
    htree⟩
  · rw [h.repository]
    exact Repository.setRef_refs ..
  · intro hsame
    have : some base = some parent := by
      rw [← hbase, ← hprior]
      exact congrArg _ hsame
    exact Option.some.inj this

/-- How many of the moves make the ref exist. -/
def bootstrapAdvances (ref : String) (init : Repository → Prop) (s : Writers ι) :
    List (Move ι Writer (Circumstances Exc)) → Nat
  | [] => 0
  | m :: ms =>
    match (writers ι ref init).step s m with
    | none => 0
    | some t =>
      (if s.best ref = none ∧ t.best ref ≠ none then 1 else 0) + bootstrapAdvances ref init t ms

theorem bootstrapAdvances_of_some {ms : List (Move ι Writer (Circumstances Exc))}
    (h : (writers ι ref fun r => r.head ≠ some ref).Reachable s) (hs : s.best ref ≠ none) :
    bootstrapAdvances ref (fun r => r.head ≠ some ref) s ms = 0 := by
  induction ms generalizing s with
  | nil => rfl
  | cons m ms ih =>
    unfold bootstrapAdvances
    cases hst : (writers ι ref fun r => r.head ≠ some ref).step s m with
    | none => rfl
    | some t =>
      have hdescends : Descends (s.best ref) (t.best ref) := (writers_step h hst).1.descends
      have ht : t.best ref ≠ none := by
        intro ht
        rw [ht] at hdescends
        cases hb : s.best ref with
        | none => exact hs hb
        | some c =>
          rw [hb] at hdescends
          exact hdescends
      dsimp only
      rw [if_neg fun hnone => hs hnone.1, ih (.next h trivial hst) ht]

theorem bootstrapAdvances_le_one {ms : List (Move ι Writer (Circumstances Exc))}
    (h : (writers ι ref fun r => r.head ≠ some ref).Reachable s) :
    bootstrapAdvances ref (fun r => r.head ≠ some ref) s ms ≤ 1 := by
  induction ms generalizing s with
  | nil => exact Nat.zero_le _
  | cons m ms ih =>
    unfold bootstrapAdvances
    cases hst : (writers ι ref fun r => r.head ≠ some ref).step s m with
    | none => exact Nat.zero_le _
    | some t =>
      have ht := Machine.Reaches.next h trivial hst
      dsimp only
      split
      · rename_i hnew
        rw [bootstrapAdvances_of_some ht hnew.2]
      · rw [Nat.zero_add]
        exact ih ht

/-- **Nothing accepted is lost** while HEAD is not attached to the ref: a step that moves the ref
is the advance of an accept branch, every earlier value of the ref is an ancestor of every later
one, and at most one advance finds no ref. -/
theorem accepted_never_lost (h : (writers ι ref fun r => r.head ≠ some ref).Reachable s) :
    (∀ m t, (writers ι ref fun r => r.head ≠ some ref).step s m = some t →
      t.best ref ≠ s.best ref → ∃ i n target handoffPath message p, m = .command i n ∧
        s.running i = some (.accept target handoffPath message, p) ∧
        target.Accepts ref handoffPath s.store t.store) ∧
    ∀ ms t, (writers ι ref fun r => r.head ≠ some ref).run s ms = some t →
      Descends (s.best ref) (t.best ref) ∧
      bootstrapAdvances ref (fun r => r.head ≠ some ref) s ms ≤ 1 := by
  refine ⟨fun m t hst hmoved => ?_, fun ms t hrun => ?_⟩
  · rcases (writers_step h hst).2 with hsame |
      ⟨i, n, w, p, hm, hp, target, handoffPath, message, commit, rfl, hadvance⟩
    · exact absurd hsame hmoved
    · exact ⟨i, n, target, handoffPath, message, p, hm, hp, hadvance.accepts⟩
  · exact ⟨writers_descends h hrun, bootstrapAdvances_le_one h⟩

end

/-! ### A ref that HEAD is attached to -/

/-- Commands that run without a hitch. -/
def calm : Circumstances Exc := ⟨none, false, "x = 1", "now", none⟩

def mainRef : String := "refs/heads/main"

def bestRef : String := "refs/xtrax/best"

/-- A bootstrap commit, and a candidate's place in it. -/
def onMain : Target := ⟨mainRef, none, some "f.py", some (.root 0 ∅), some (.root 0 ∅)⟩

/-- A fresh repository. -/
def fresh (head : Option String) : Writers Bool := ⟨⟨fun _ => none, head, []⟩, fun _ => none⟩

/-- One process accepts a candidate; a second reads the ref to reset to it; the first accepts
another. -/
def twoAccepted : List (Move Bool Writer (Circumstances Exc)) :=
  .start true (.accept onMain "c.py" "one") :: List.replicate 10 (.command true calm) ++
    [.start false (.reject onMain true), .command false calm] ++
    .start true (.accept onMain "c.py" "two") :: List.replicate 9 (.command true calm)

/-- What the first of them becomes. -/
def firstAccepted : Commit :=
  .child (Finmap.insert "f.py" ⟨"100644", "x = 1"⟩ ∅) (.root 0 ∅) "one" "now"

/-- The state in which the first process is about to compare and swap, HEAD being elsewhere. -/
def aboutToAdvance : Option (Writers Bool) :=
  (writers Bool bestRef fun r => r.head ≠ some bestRef).run (fresh (some mainRef))
    (.start true (.accept onMain "c.py" "one") :: List.replicate 8 (.command true calm))

theorem accepted_never_lost_advance :
    ∃ s t, (writers Bool bestRef fun r => r.head ≠ some bestRef).Reachable s ∧
      (writers Bool bestRef fun r => r.head ≠ some bestRef).step s (.command true calm) = some t ∧
      s.best bestRef = none ∧ t.best bestRef = some firstAccepted ∧
      ∃ (target : Target) (handoffPath : String),
        target.Accepts bestRef handoffPath s.store t.store := by
  have hs : aboutToAdvance.isSome = true := rfl
  have ht : ((writers Bool bestRef fun r => r.head ≠ some bestRef).step (aboutToAdvance.get hs)
      (.command true calm)).isSome = true := rfl
  have hreachable : (writers Bool bestRef fun r => r.head ≠ some bestRef).Reachable
      (aboutToAdvance.get hs) :=
    Machine.reachable_of_run ⟨by decide, fun _ => rfl⟩ (Option.some_get hs).symm
  have hstep := (Option.some_get ht).symm
  obtain ⟨_, _, target, handoffPath, _, _, _, _, haccepts⟩ :=
    (accepted_never_lost hreachable).1 _ _ hstep (by
      show some firstAccepted ≠ none
      exact nofun)
  exact ⟨_, _, hreachable, hstep, rfl, rfl, target, handoffPath, haccepts⟩

/-- The state in which the second process has yet to reset. -/
def afterTwo : Option (Writers Bool) :=
  (writers Bool mainRef fun _ => True).run (fresh (some mainRef)) twoAccepted

/-- When HEAD is attached to the ref, a reset takes back what was accepted after its read. -/
theorem reset_rewinds_ref :
    ∃ s t m, (writers Bool mainRef fun _ => True).Reachable s ∧
      (writers Bool mainRef fun _ => True).step s m = some t ∧
      ¬ Descends (s.best mainRef) (t.best mainRef) := by
  have hs : afterTwo.isSome = true := rfl
  have ht : ((writers Bool mainRef fun _ => True).step (afterTwo.get hs)
      (.command false calm)).isSome = true := rfl
  refine ⟨afterTwo.get hs, Option.get _ ht, .command false calm,
    Machine.reachable_of_run ⟨trivial, fun _ => rfl⟩ (Option.some_get hs).symm,
    (Option.some_get ht).symm, fun h => ?_⟩
  have hback : Commit.Ancestor (.child firstAccepted.tree firstAccepted "two" "now")
      firstAccepted := h
  rcases hback.eq_or_depth_lt with heq | hlt
  · exact absurd (congrArg Commit.depth heq) (by decide)
  · exact absurd hlt (by decide)

end Xtrax.BestSoFar
