import Mathlib.Data.Finmap
import Mathlib.Order.Basic
import Xtrax.Programs

/-!
# Commits, refs and git's plumbing commands

A commit is named by a hash of all it holds, its parent's name included.  Here it is what it
holds: two commits are one if they have equal trees, parents, messages and stamps, and no commit
is its own ancestor.  A repository is what its refs name, and the branch HEAD is attached to.

`exec` is what each command answers and changes.  `commitTree` and the commands on a scratch
index only make objects, which changes nothing here; `updateRef` compares and swaps in one
step; `resetHard` moves the branch HEAD is attached to, without a comparison.
-/

namespace Xtrax.Git

/-! ### Objects -/

/-- What a tree has at a path: the file mode and the contents. -/
structure Entry where
  mode : String
  contents : String
  deriving DecidableEq

/-- A tree, or an index: the files by their paths. -/
abbrev Tree := Finmap fun _ : String => Entry

inductive Commit where
  /-- A commit made by somebody else, before. -/
  | root (id : Nat) (tree : Tree)
  | child (tree : Tree) (parent : Commit) (message stamp : String)
  deriving DecidableEq

namespace Commit

def tree : Commit → Tree
  | root _ tree => tree
  | child tree _ _ _ => tree

/-- The parent a `commit-tree` gave it. -/
def parent : Commit → Option Commit
  | root _ _ => none
  | child _ parent _ _ => some parent

def message : Commit → Option String
  | root _ _ => none
  | child _ _ message _ => some message

/-- The commits of a line that are not by somebody else. -/
def depth : Commit → Nat
  | root _ _ => 0
  | child _ parent _ _ => parent.depth + 1

/-- `a` is `c` or one of its ancestors. -/
inductive Ancestor (a : Commit) : Commit → Prop
  | refl : Ancestor a a
  | step {tree : Tree} {parent : Commit} {message stamp : String} :
      Ancestor a parent → Ancestor a (child tree parent message stamp)

theorem Ancestor.trans {a b c : Commit} (hab : Ancestor a b) (hbc : Ancestor b c) :
    Ancestor a c := by
  induction hbc with
  | refl => exact hab
  | step _ ih => exact .step ih

theorem Ancestor.eq_or_depth_lt {a c : Commit} (h : Ancestor a c) : a = c ∨ a.depth < c.depth := by
  induction h with
  | refl => exact .inl rfl
  | step _ ih =>
    right
    rcases ih with rfl | hlt
    · exact Nat.lt_succ_self _
    · exact Nat.lt_succ_of_lt hlt

theorem Ancestor.antisymm {a c : Commit} (hac : Ancestor a c) (hca : Ancestor c a) : a = c := by
  rcases hac.eq_or_depth_lt with h | h
  · exact h
  · rcases hca.eq_or_depth_lt with h' | h'
    · exact h'.symm
    · omega

instance : PartialOrder Commit where
  le := Ancestor
  le_refl _ := .refl
  le_trans _ _ _ := Ancestor.trans
  le_antisymm _ _ := Ancestor.antisymm

theorem le_child {tree : Tree} {parent : Commit} {message stamp : String} :
    parent ≤ child tree parent message stamp :=
  .step .refl

end Commit

/-- What a ref may go on to name: any commit at first, then descendants only. -/
def Descends : Option Commit → Option Commit → Prop
  | none, _ => True
  | some _, none => False
  | some c, some d => c ≤ d

theorem Descends.refl (o : Option Commit) : Descends o o := by
  cases o with
  | none => exact trivial
  | some c => exact le_refl c

theorem Descends.trans {o p q : Option Commit} (hop : Descends o p) (hpq : Descends p q) :
    Descends o q := by
  cases o with
  | none => exact trivial
  | some c =>
    cases p with
    | none => exact hop.elim
    | some d =>
      cases q with
      | none => exact hpq.elim
      | some e => exact le_trans (show c ≤ d from hop) hpq

theorem Descends.antisymm {o p : Option Commit} (hop : Descends o p) (hpo : Descends p o) :
    o = p := by
  cases o with
  | none =>
    cases p with
    | none => rfl
    | some d => exact hpo.elim
  | some c =>
    cases p with
    | none => exact hop.elim
    | some d => exact congrArg some (le_antisymm (show c ≤ d from hop) hpo)

/-! ### Commands -/

structure Repository where
  refs : String → Option Commit
  /-- The branch HEAD is attached to; `none` when HEAD is detached. -/
  head : Option String
  /-- The files `hash-object` has written into the object database, with the contents each had. -/
  hashed : List (String × String)

/-- The repository after the ref was made to name the commit. -/
def Repository.setRef (r : Repository) (ref : String) (commit : Commit) : Repository :=
  { r with refs := Function.update r.refs ref (some commit) }

@[simp] theorem Repository.setRef_refs (r : Repository) (ref : String) (commit : Commit) :
    (r.setRef ref commit).refs ref = some commit :=
  Function.update_self ..

/-- The git commands the ratchet runs. -/
inductive Command where
  | revParseVerify (ref : String)
  | revParseTree (base : Commit)
  | readTree (tree : Tree)
  | hashObject (path : String)
  | updateIndex (index : Tree) (mode contents path : String)
  | writeTree (index : Tree)
  | commitTree (tree : Tree) (parent : Commit) (message : String)
  | updateRef (ref : String) (new : Commit) (old : Option Commit)
  | resetHard (commit : Commit)
  deriving DecidableEq

/-- What a command prints. -/
@[reducible] def Command.Output : Command → Type
  | revParseVerify _ => Commit
  | revParseTree _ => Tree
  | readTree _ => Tree
  | hashObject _ => String
  | updateIndex _ _ _ _ => Tree
  | writeTree _ => Tree
  | commitTree _ _ _ => Commit
  | updateRef _ _ _ => Unit
  | resetHard _ => Unit

/-- What running a command comes to: running it raised, or it exited with a nonzero status, or
it printed something. -/
abbrev Command.Completed (ε : Type) (c : Command) : Type := Except ε (Option c.Output)

/-- What decides the outcome of a command besides the repository. -/
structure Circumstances (ε : Type) where
  /-- Raised before the command took effect. -/
  before : Option ε
  /-- The command refuses to run and exits with a nonzero status. -/
  refused : Bool
  /-- The contents a file has when it is read. -/
  contents : String
  /-- The rest of what a commit records: who and when. -/
  stamp : String
  /-- Raised after the command took effect. -/
  after : Option ε
  deriving DecidableEq

variable {ε : Type}

/-- What a command that does run prints, and the repository after it.  `update-ref` fails when the
ref is not as expected. -/
def effect (r : Repository) (n : Circumstances ε) : (c : Command) → Option c.Output × Repository
  | .revParseVerify ref => (r.refs ref, r)
  | .revParseTree base => (some base.tree, r)
  | .readTree tree => (some tree, r)
  | .hashObject path => (some n.contents, { r with hashed := (path, n.contents) :: r.hashed })
  | .updateIndex index mode contents path => (some (index.insert path ⟨mode, contents⟩), r)
  | .writeTree index => (some index, r)
  | .commitTree tree parent message => (some (.child tree parent message n.stamp), r)
  | .updateRef ref new old =>
    if r.refs ref = old then (some (), r.setRef ref new) else (none, r)
  | .resetHard commit =>
    match r.head with
    | some branch => (some (), r.setRef branch commit)
    | none => (some (), r)

/-- Only a command that is not `rev-parse --verify` may refuse to run. -/
def Command.mayRefuse : Command → Bool
  | revParseVerify _ => false
  | _ => true

/-- Running a command. -/
def exec (r : Repository) (n : Circumstances ε) (c : Command) : c.Completed ε × Repository :=
  match n.before with
  | some e => (.error e, r)
  | none =>
    if n.refused ∧ c.mayRefuse then (.ok none, r)
    else
      match n.after with
      | some e => (.error e, (effect r n c).2)
      | none => (.ok (effect r n c).1, (effect r n c).2)

/-- A program of git commands that may raise. -/
abbrev GitProgram (ε α : Type) :=
  ExceptT ε (Interleaving.Program Command (Command.Completed ε)) α

/-- Runs a command; `none` when its status was nonzero. -/
def gitRun (c : Command) : GitProgram ε (Option c.Output) :=
  ExceptT.mk (Interleaving.Program.command c)

/-! ### Rules -/

/-- No ref has moved; there may be more objects. -/
structure Quiet (r r' : Repository) : Prop where
  refs : r'.refs = r.refs
  head : r'.head = r.head
  hashed : ∀ f ∈ r.hashed, f ∈ r'.hashed

theorem Quiet.refl (r : Repository) : Quiet r r := ⟨rfl, rfl, fun _ h => h⟩

/-- The commands that move no ref. -/
def Command.quiet : Command → Bool
  | updateRef _ _ _ => false
  | resetHard _ => false
  | _ => true

theorem effect_quiet {r : Repository} {n : Circumstances ε} {c : Command} (hc : c.quiet = true) :
    Quiet r (effect r n c).2 := by
  cases c with
  | hashObject path => exact ⟨rfl, rfl, fun _ h => List.mem_cons_of_mem _ h⟩
  | updateRef _ _ _ => exact nomatch hc
  | resetHard _ => exact nomatch hc
  | _ => exact .refl r

theorem exec_cases {r : Repository} {n : Circumstances ε} {c : Command} :
    ((exec r n c).2 = r ∧ ((∃ e, (exec r n c).1 = .error e) ∨
      (exec r n c).1 = .ok none ∧ c.mayRefuse = true)) ∨
    ((exec r n c).2 = (effect r n c).2 ∧ ((∃ e, (exec r n c).1 = .error e) ∨
      (exec r n c).1 = .ok (effect r n c).1)) := by
  unfold exec
  cases n.before with
  | some e => exact .inl ⟨rfl, .inl ⟨e, rfl⟩⟩
  | none =>
    dsimp only
    split
    · rename_i h
      exact .inl ⟨rfl, .inr ⟨rfl, h.2⟩⟩
    · cases n.after with
      | some e => exact .inr ⟨rfl, .inl ⟨e, rfl⟩⟩
      | none => exact .inr ⟨rfl, .inr rfl⟩

section

variable {α β : Type} {rely G : Repository → Repository → Prop}
variable {Q : Except ε β → Repository → Prop} {s : Repository}

theorem meets_bind {m : GitProgram ε α} {k : α → GitProgram ε β} :
    (m >>= k).run.Meets (exec (ε := ε)) rely G Q s ↔
      m.run.Meets exec rely G
        (fun r t => match r with
          | .ok a => (k a).run.Meets exec rely G Q t
          | .error e => Q (.error e) t) s := by
  rw [ExceptT.run_bind, Interleaving.Program.meets_bind]
  refine iff_of_eq (congrArg (fun P => m.run.Meets exec rely G P s) ?_)
  funext r t
  cases r <;> rfl

theorem meets_gitRun {c : Command} {Q : Except ε (Option c.Output) → Repository → Prop} :
    (gitRun c : GitProgram ε _).run.Meets exec rely G Q s ↔
      ∀ t n, rely s t → G t (exec t n c).2 ∧ Q (exec t n c).1 (exec t n c).2 :=
  Iff.rfl

/-- A predicate that the others keep, and the commands that move no ref. -/
structure Stable (rely : Repository → Repository → Prop) (P : Repository → Prop) : Prop where
  rely : ∀ s t, rely s t → P s → P t
  quiet : ∀ s t, Quiet s t → P s → P t

theorem Stable.and {P P' : Repository → Prop} (h : Stable rely P) (h' : Stable rely P') :
    Stable rely fun s => P s ∧ P' s :=
  ⟨fun s t hst hs => ⟨h.rely s t hst hs.1, h'.rely s t hst hs.2⟩,
    fun s t hst hs => ⟨h.quiet s t hst hs.1, h'.quiet s t hst hs.2⟩⟩

/-- A command that moves no ref keeps what is stable: it raises, fails, or prints its effect. -/
theorem meets_quiet {c : Command} {Q : Except ε (Option c.Output) → Repository → Prop}
    {P : Repository → Prop} (hP : Stable rely P) (hs : P s) (hc : c.quiet = true)
    (hG : ∀ t t', Quiet t t' → G t t') (herror : ∀ t e, P t → Q (.error e) t)
    (hnone : ∀ t, P t → c.mayRefuse = true → Q (.ok none) t)
    (heffect : ∀ t (n : Circumstances ε), P t → P (effect t n c).2 →
      Q (.ok (effect t n c).1) (effect t n c).2) :
    (gitRun c : GitProgram ε _).run.Meets exec rely G Q s := by
  refine meets_gitRun.mpr fun t n hst => ?_
  have ht : P t := hP.rely s t hst hs
  have hquiet : Quiet t (effect t n c).2 := effect_quiet hc
  rcases exec_cases (r := t) (n := n) (c := c) with ⟨hr, h⟩ | ⟨hr, h⟩
  · rw [hr]
    refine ⟨hG _ _ (.refl t), ?_⟩
    rcases h with ⟨e, he⟩ | ⟨h, hrefuse⟩
    · rw [he]
      exact herror t e ht
    · rw [h]
      exact hnone t ht hrefuse
  · rw [hr]
    refine ⟨hG _ _ hquiet, ?_⟩
    rcases h with ⟨e, he⟩ | h
    · rw [he]
      exact herror _ e (hP.quiet _ _ hquiet ht)
    · rw [h]
      exact heffect t n ht (hP.quiet _ _ hquiet ht)

/-- The comparison and the swap: it raises or fails and nothing has moved, or the ref named `old`
and now names `new`. -/
theorem meets_updateRef {ref : String} {new : Commit} {old : Option Commit}
    {Q : Except ε (Option Unit) → Repository → Prop} {P : Repository → Prop}
    (hP : Stable rely P) (hs : P s) (hG : ∀ t t', Quiet t t' → G t t')
    (herror : ∀ t e, P t → Q (.error e) t) (hnone : ∀ t, P t → Q (.ok none) t)
    (hmove : ∀ t, P t → t.refs ref = old → G t (t.setRef ref new) ∧
      (∀ e, Q (.error e) (t.setRef ref new)) ∧ Q (.ok (some ())) (t.setRef ref new)) :
    (gitRun (.updateRef ref new old) : GitProgram ε _).run.Meets exec rely G Q s := by
  refine meets_gitRun.mpr fun t n hst => ?_
  have ht : P t := hP.rely s t hst hs
  have heffect : effect t n (.updateRef ref new old) =
      if t.refs ref = old then (some (), t.setRef ref new) else (none, t) := rfl
  rcases exec_cases (r := t) (n := n) (c := .updateRef ref new old) with ⟨hr, h⟩ | ⟨hr, h⟩
  · -- it did not get to the comparison
    rw [hr]
    refine ⟨hG _ _ (.refl t), ?_⟩
    rcases h with ⟨e, he⟩ | ⟨h, -⟩
    · rw [he]
      exact herror t e ht
    · rw [h]
      exact hnone t ht
  · rw [hr]
    rw [heffect] at h ⊢
    by_cases hold : t.refs ref = old
    · rw [if_pos hold] at h ⊢
      obtain ⟨hmoves, hmoved, hdone⟩ := hmove t ht hold
      refine ⟨hmoves, ?_⟩
      rcases h with ⟨e, he⟩ | h
      · rw [he]
        exact hmoved e
      · rw [h]
        exact hdone
    · rw [if_neg hold] at h ⊢
      refine ⟨hG _ _ (.refl t), ?_⟩
      rcases h with ⟨e, he⟩ | h
      · rw [he]
        exact herror t e ht
      · rw [h]
        exact hnone t ht

end

/-! ### What a program raises -/

theorem exec_error {r : Repository} {n : Circumstances ε} {c : Command} {e : ε}
    (h : (exec r n c).1 = .error e) : n.before = some e ∨ n.after = some e := by
  unfold exec at h
  cases hb : n.before with
  | some e' =>
    rw [hb] at h
    exact .inl (congrArg some (Except.error.inj h))
  | none =>
    simp only [hb] at h
    split at h
    · exact nomatch h
    · cases ha : n.after with
      | some e' =>
        rw [ha] at h
        exact .inr (congrArg some (Except.error.inj h))
      | none =>
        rw [ha] at h
        exact nomatch h

/-- What the program raises is in `S`, or was raised by one of its commands. -/
def Raises {α : Type} :
    (ε → Prop) → Interleaving.Program Command (Command.Completed ε) (Except ε α) → Prop
  | _, .ret (.ok _) => True
  | S, .ret (.error e) => S e
  | S, .call _ k => ∀ r, Raises (fun e => S e ∨ r = .error e) (k r)

theorem Raises.mono {α : Type} {S S' : ε → Prop}
    {p : Interleaving.Program Command (Command.Completed ε) (Except ε α)} (h : Raises S p)
    (hS : ∀ e, S e → S' e) : Raises S' p := by
  induction p generalizing S S' with
  | ret r =>
    cases r with
    | ok a => exact trivial
    | error e => exact hS e h
  | call c k ih => exact fun r => ih r (h r) fun e => Or.imp_left (hS e)

theorem raises_bind {α β : Type} {S : ε → Prop} {m : GitProgram ε α} {k : α → GitProgram ε β}
    (hm : Raises S m.run) (hk : ∀ a, Raises S (k a).run) : Raises S (m >>= k).run := by
  rw [ExceptT.run_bind]
  suffices ∀ (p : Interleaving.Program Command (Command.Completed ε) (Except ε α))
      (S' : ε → Prop), (∀ e, S e → S' e) → Raises S' p →
      Raises S' (p >>= fun r => match r with
        | .ok a => (k a).run
        | .error e => pure (.error e)) from this m.run S (fun _ h => h) hm
  intro p
  induction p with
  | ret r =>
    intro S' hS hp
    cases r with
    | ok a => exact (hk a).mono hS
    | error e => exact hp
  | call c f ih =>
    intro S' hS hp r
    exact ih r _ (fun e he => .inl (hS e he)) (hp r)

theorem raises_gitRun {S : ε → Prop} {c : Command} : Raises S (gitRun c : GitProgram ε _).run := by
  intro r
  cases r with
  | ok o => exact trivial
  | error e => exact .inr rfl

end Xtrax.Git
